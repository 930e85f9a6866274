import ClOs.ProcessFailures

/-!
# The stack of a process

`create_process` lets the stack of a process begin one page above
`STACK_ELF_START`, and `elf_load` maps the page below `STACK_ELF_START`.  The
page between them, which the process pushes into first, is mapped by neither.
-/

namespace ClOs

open Memory

variable {Device : Type}

namespace Memory

section

variable {vm mid next : Vm} {live : List ℕ}
  {current pageDir owner page virtAddr : ℕ}

/-! ## Pages that stay unmapped -/

theorem Apart.alloc_notTable
    (h : Apart vm live) {address : ℕ} {frames : Frames}
    (halloc : pmmAllocPageFrame vm.frames = .ok (address, frames)) :
    address % 0x1000 = 0 ∧ ¬IsTable vm live (address / 0x1000) := by
  by_cases hzero : address = 0
  · subst hzero
    refine ⟨rfl, fun htable => ?_⟩
    have hrange := (h.table _ htable).1
    have hmin := h.directories.min_pos
    omega
  · have htakes := pmmAllocPageFrame_takes halloc hzero
    refine ⟨htakes.aligned, fun htable => ?_⟩
    have hclear := htakes.clear
    rw [(h.table _ htable).2] at hclear
    cases hclear

theorem Apart.newTable_none
    (h : Apart vm live) (hactive : Active vm live pageDir)
    (howner : Active vm live owner)
    {pdIndex ptIndex address flags entry : ℕ}
    (hflags : flags.testBit 7 = false) (haligned : address % 0x1000 = 0)
    (hnot : ¬IsTable vm live (address / 0x1000))
    (hframe : address / 0x1000 ≠ staticFrame pageDir)
    (hwords : NewTable vm mid owner pdIndex ptIndex address (flags &&& 0x3FF)
      entry) (hpage : page < 0xC0000)
    (hother : ¬(pdIndex = page / 1024 ∧ ptIndex = page % 1024))
    (hnone : translate vm.word (staticFrame pageDir) page = none) :
    translate mid.word (staticFrame pageDir) page = none := by
  by_cases hcell : staticFrame pageDir = staticFrame owner ∧
    page / 1024 = pdIndex
  · obtain ⟨hsame, rfl⟩ := hcell
    have hmask : flags &&& 0x3FF < 0x400 :=
      Nat.and_lt_two_pow flags (by norm_num : 0x3FF < 2 ^ 10)
    have hentry : mid.word (staticFrame pageDir) (page / 1024) =
        tableEntry address (flags &&& 0x3FF) := by
      rw [hsame]
      exact hwords.directory
    have hpoints : Points mid.word (staticFrame pageDir) (page / 1024)
        (address / 0x1000) := by
      unfold Points
      rw [hentry]
      exact tableEntry_spec address hmask
    have hsmall := tableEntry_small haligned hflags
    rw [← hentry] at hsmall
    have hzero := hwords.zero (page % 1024) (by omega)
      (fun hindex => hother ⟨rfl, hindex.symm⟩)
    obtain ⟨pde, hwalk⟩ := translate_table hpoints hsmall hzero
    rw [hwalk]
    rfl
  · refine (translate_keep (hwords.others _ hframe.symm _ hcell) ?_).trans hnone
    intro used hused hsmall
    have htable : IsTable vm live used :=
      ⟨pageDir, hactive, _, by omega, hused, hsmall⟩
    refine hwords.others _ ?_ _ ?_
    · rintro rfl
      exact hnot htable
    · rintro ⟨rfl, -⟩
      exact htable.ne_dir h.directories howner rfl

/-- A page of the user half of any directory stays unmapped when another page is
mapped. -/
theorem Tabled.mapsIn_none
    (h : Tabled vm live) (hactive : Active vm live pageDir)
    (howner : Active vm live owner) {pdIndex ptIndex flags entry : ℕ}
    (hpd : pdIndex < 1023) (hplace : pdIndex ≠ 768)
    (hflags : flags.testBit 7 = false)
    (hmaps : MapsIn vm (staticFrame owner) pdIndex ptIndex (flags &&& 0x3FF)
      entry mid) (hpage : page < 0xC0000)
    (hother : ¬(pdIndex = page / 1024 ∧ ptIndex = page % 1024))
    (hnone : translate vm.word (staticFrame pageDir) page = none) :
    translate mid.word (staticFrame pageDir) page = none := by
  have hdirs := h.apart.directories
  cases hmaps with
  | @present target count htable =>
      have hat : TableAt vm owner pdIndex target :=
        ⟨htable, h.small owner howner pdIndex hpd hplace htable.1⟩
      have hdir := hdirs.table_ne howner hpd htable hactive
      refine (translate_keep (setAt_of_ne _ _ (.inl hdir.symm)) ?_).trans hnone
      intro used hused hsmall
      refine setAt_of_ne _ _ ?_
      by_cases hsame : used = target
      · subst hsame
        have hplaces := (h.apart.unique pageDir hactive owner howner _
          (by omega) pdIndex hpd used ⟨hused, hsmall⟩ hat).1
        exact .inr fun hentry => hother ⟨hplaces.symm, hentry.symm⟩
      · exact .inl hsame
  | @absent address count frames habsent halloc =>
      obtain ⟨haligned, hnot⟩ := h.apart.alloc_notTable halloc
      exact h.apart.newTable_none hactive howner hflags haligned hnot
        (hdirs.fresh hactive halloc)
        (newTable_words (hdirs.fresh howner halloc) rfl) hpage hother hnone

theorem Directories.leave_user (h : Directories vm live)
    (hactive : Active vm live pageDir) (hpage : page < 0xC0000) (prev : ℕ) :
    translate (leaveKernelHalf prev vm).word (staticFrame pageDir) page =
      translate vm.word (staticFrame pageDir) page := by
  unfold leaveKernelHalf
  split_ifs
  · refine translate_keep (syncPageDirs_user vm _ (by omega)) ?_
    intro target htarget hsmall
    exact syncPageDirs_table h
      ⟨pageDir, hactive, _, by omega, htarget, hsmall⟩ _
  · rfl

theorem InDirectory.mapPage_none
    (h : InDirectory vm live current) (hactive : Active vm live pageDir)
    {phys flags : ℕ} {frames : Frames}
    (halloc : pmmAllocPageFrame vm.frames = .ok (phys, frames))
    (hflags : PageFlags flags) (hbelow : virtAddr < 0xFFC00000)
    (hplace : virtAddr / 0x400000 ≠ 768)
    (hok : memMapPage virtAddr phys flags { vm with frames := frames } =
      .ok next)
    (hpage : page < 0xC0000) (hother : virtAddr / 0x1000 ≠ page)
    (hnone : translate vm.word (staticFrame pageDir) page = none) :
    Active next live pageDir ∧
      translate next.word (staticFrame pageDir) page = none := by
  have hstart : kernelStart = 3221225472 := rfl
  have hself : { vm with frames := frames } =
      memChangePageDir { vm with frames := frames } current :=
    (Elf.memChangePageDir_self (h.alloc halloc).cr3).symm
  rw [hself] at hok
  have hafter := h.tabled.alloc halloc
  have hdirs := hafter.apart.directories
  have hindex : virtAddr / 0x400000 < 1023 := by omega
  have hcell : ¬(virtAddr / 0x400000 = page / 1024 ∧
      virtAddr / 0x1000 % 0x400 = page % 1024) := by
    omega
  rcases Nat.lt_or_ge virtAddr kernelStart with huser | hkernel
  · obtain ⟨owner, howner, -, hmaps⟩ := hdirs.map_user h.active huser hok
    have hedit := (hdirs.change _).map_edits howner hindex hmaps
    exact ⟨hedit.statics.active.2 hactive,
      (hafter.change current).mapsIn_none hactive howner hindex hplace
        hflags.spec.2.1 hmaps hpage hcell hnone⟩
  · obtain ⟨mapped, hmaps, rfl⟩ := hdirs.map_kernel h.active hkernel hbelow hok
    have hinitial : Active (memChangePageDir { vm with frames := frames }
        vm.initialPageDir) live vm.initialPageDir := .inl rfl
    have hedit := (hdirs.change _).map_edits hinitial hindex hmaps
    have hmapped := (hdirs.change _).edit hedit hindex
    have hold : Active mapped live pageDir := hedit.statics.active.2 hactive
    have hleft : (leaveKernelHalf current mapped).initialPageDir =
        mapped.initialPageDir := by
      unfold leaveKernelHalf
      split_ifs <;> rfl
    constructor
    · unfold Active
      rw [hleft]
      exact hold
    · rw [hmapped.leave_user hold hpage]
      exact (hafter.change vm.initialPageDir).mapsIn_none hactive hinitial hindex
        hplace hflags.spec.2.1 hmaps hpage hcell hnone

theorem storeByte_frames
    {a value : ℕ} (hok : storeByte a value vm = .ok next) :
    next.frames = vm.frames := by
  unfold storeByte at hok
  split at hok
  · cases hok
  · cases hok
    rfl

/-- A byte of a mapped page of the user half. -/
theorem InDirectory.storeByte_none
    (h : InDirectory vm live current) (hactive : Active vm live pageDir)
    {a value : ℕ} (ha : a < kernelStart)
    (hok : Memory.storeByte a value vm = .ok next) (hpage : page < 0xC0000)
    (hnone : translate vm.word (staticFrame pageDir) page = none) :
    Active next live pageDir ∧
      translate next.word (staticFrame pageDir) page = none := by
  have hstart : kernelStart = 3221225472 := rfl
  unfold Memory.storeByte at hok
  cases hwalk : translate vm.word (vm.cr3 / 0x1000) (a / 0x1000) with
  | none =>
      rw [hwalk] at hok
      cases hok
  | some place =>
      obtain ⟨frame, pde, pte⟩ := place
      rw [hwalk] at hok
      cases hok
      rw [h.cr3] at hwalk
      change translate vm.word (staticFrame current) (a / 0x1000) = _ at hwalk
      have hpresent : vm.word (staticFrame current) (a / 0x1000 / 1024) % 2 =
          1 := by
        by_contra habsent
        rw [translate_absent (by omega)] at hwalk
        cases hwalk
      have hsmall := h.tabled.small current h.active _ (by omega) (by omega)
        hpresent
      obtain ⟨table, htable, hentry, -, -⟩ := translate_some hsmall hwalk
      have his : IsTable vm live table :=
        ⟨current, h.active, _, by omega, htable, hsmall⟩
      obtain ⟨-, hrow, htables⟩ := h.tabled.apart.setByte
        ⟨table, his, _, by omega, hentry⟩ (a % 0x1000) value
      refine ⟨hactive, ?_⟩
      refine (translate_keep (congrFun (hrow pageDir hactive) _) ?_).trans hnone
      intro used hused hshown
      exact congrFun (htables used
        ⟨pageDir, hactive, _, by omega, hused, hshown⟩) _

theorem InDirectory.findsTable
    (h : InDirectory vm live current) {phys flags : ℕ} {frames : Frames}
    (halloc : pmmAllocPageFrame vm.frames = .ok (phys, frames))
    (hbelow : virtAddr < 0xFFC00000) (hplace : virtAddr / 0x400000 ≠ 768)
    (hok : memMapPage virtAddr phys flags { vm with frames := frames } =
      .ok next) (hleft : 0 < next.frames.free.card) :
    FindsTable vm current virtAddr := by
  intro other taken hother hcard
  rw [halloc, Except.ok.injEq, Prod.mk.injEq] at hother
  obtain ⟨rfl, rfl⟩ := hother
  have hstart : kernelStart = 3221225472 := rfl
  have hself : { vm with frames := frames } =
      memChangePageDir { vm with frames := frames } current :=
    (Elf.memChangePageDir_self (h.alloc halloc).cr3).symm
  rw [hself] at hok
  have hdirs := (h.tabled.alloc halloc).apart.directories
  have hindex : virtAddr / 0x400000 < 1023 := by omega
  have hkeep : ∀ {owner mapped},
      MapsIn (memChangePageDir { vm with frames := frames } owner)
        (shownFrame vm current virtAddr) (virtAddr / 0x400000)
        (virtAddr / 0x1000 % 0x400) (flags &&& 0x3FF) (pageEntry phys flags)
        mapped → 0 < mapped.frames.free.card →
      shownEntry vm current virtAddr % 2 = 1 := by
    intro owner mapped hmaps hcards
    cases hmaps with
    | present htable => exact htable.1
    | @absent address count after habsent hlast =>
        have hsame := pmmAllocPageFrame_same hcard hlast
        dsimp only at hcards
        rw [hsame] at hcards
        omega
  obtain ⟨owner, howner, hshown, -⟩ := h.tabled.apart.directories.shown h.active
    virtAddr
  have hpresent : shownEntry vm current virtAddr % 2 = 1 := by
    rcases Nat.lt_or_ge virtAddr kernelStart with huser | hkernel
    · obtain ⟨other, hother, hself, hmaps⟩ := hdirs.map_user h.active huser hok
      have hframe : shownFrame vm current virtAddr = staticFrame other := by
        unfold shownFrame editedFrom
        rw [if_neg (by omega)]
        exact hself.2
      rw [← hframe] at hmaps
      exact hkeep hmaps hleft
    · obtain ⟨mapped, hmaps, rfl⟩ := hdirs.map_kernel h.active hkernel hbelow hok
      have hframe : shownFrame vm current virtAddr =
          staticFrame vm.initialPageDir := by
        unfold shownFrame editedFrom
        rw [if_pos hkernel]
        exact hdirs.initial_self.2
      rw [leaveKernelHalf_frames] at hleft
      have hmaps : MapsIn (memChangePageDir { vm with frames := frames }
          vm.initialPageDir) (staticFrame vm.initialPageDir) _ _ _ _ mapped :=
        hmaps
      rw [← hframe] at hmaps
      exact hkeep hmaps hleft
  refine ⟨hpresent, ?_⟩
  unfold shownEntry at hpresent ⊢
  rw [hshown] at hpresent ⊢
  exact h.tabled.small owner howner _ hindex hplace hpresent

/-! ## Growth of the heap and loads -/

/-- While a frame is left, the directories are kept apart, and a page of one of
them is not mapped. -/
def LeavesUnmapped (vm : Vm) (live : List ℕ) (current pageDir page : ℕ) :
    Prop :=
  0 < vm.frames.free.card → InDirectory vm live current ∧
    Active vm live pageDir ∧
    translate vm.word (staticFrame pageDir) page = none

theorem pmmAllocPageFrame_left
    {frames after : Frames} {phys : ℕ}
    (halloc : pmmAllocPageFrame frames = .ok (phys, after)) (hphys : phys ≠ 0) :
    0 < frames.free.card := by
  have hcard := (pmmAllocPageFrame_takes halloc hphys).card_free
  omega

theorem LeavesUnmapped.mapPage
    (h : LeavesUnmapped vm live current pageDir page) {phys flags : ℕ}
    {frames : Frames}
    (halloc : pmmAllocPageFrame vm.frames = .ok (phys, frames))
    (hphys : phys ≠ 0) (hflags : PageFlags flags)
    (hbelow : virtAddr < 0xFFC00000) (hplace : virtAddr / 0x400000 ≠ 768)
    (hok : memMapPage virtAddr phys flags { vm with frames := frames } =
      .ok next)
    (hpage : page < 0xC0000) (hother : virtAddr / 0x1000 ≠ page) :
    LeavesUnmapped next live current pageDir page ∧
      translate next.word (staticFrame pageDir) page = none := by
  obtain ⟨hin, hactive, hnone⟩ := h (pmmAllocPageFrame_left halloc hphys)
  obtain ⟨hafter, hkept⟩ := hin.mapPage_none hactive halloc hflags hbelow hplace
    hok hpage hother hnone
  exact ⟨fun hleft => ⟨hin.mapPage halloc hphys hflags hbelow hplace
    (hin.findsTable halloc hbelow hplace hok hleft) hok, hafter, hkept⟩, hkept⟩

theorem mapHeapPage_ok
    (h : Heap.mapHeapPage vm page = .ok next) :
    ∃ phys frames, pmmAllocPageFrame vm.frames = .ok (phys, frames) ∧
      phys ≠ 0 ∧ memMapPage page phys
        (pageFlagPresent ||| pageFlagWrite ||| pageFlagOwner)
        { vm with frames := frames } = .ok next := by
  unfold Heap.mapHeapPage at h
  rw [Outcome.bind_eq_ok] at h
  obtain ⟨⟨phys, frames⟩, halloc, h⟩ := h
  dsimp only at h
  split_ifs at h with hphys
  exact ⟨phys, frames, halloc, hphys, h⟩

def HeapPages (pages : List ℕ) : Prop :=
  ∀ page ∈ pages, kernelMalloc ≤ page ∧ page < 0xFFC00000

theorem growHeap_keeps
    (keeps : Vm → Prop) {pages : List ℕ} (hpages : HeapPages pages)
    (hstep : ∀ vm next page, kernelMalloc ≤ page → page < 0xFFC00000 →
      keeps vm → Heap.mapHeapPage vm page = .ok next → keeps next)
    (hvm : keeps vm) (hgrow : pages.foldlM Heap.mapHeapPage vm = .ok next) :
    keeps next := by
  induction pages generalizing vm with
  | nil =>
      cases hgrow
      exact hvm
  | cons page pages ih =>
      obtain ⟨hlow, hhigh⟩ := hpages page (List.mem_cons_self ..)
      rw [List.foldlM_cons, Outcome.bind_eq_ok] at hgrow
      obtain ⟨mid, hmap, hgrow⟩ := hgrow
      exact ih (fun other hother => hpages other (List.mem_cons_of_mem _ hother))
        (hstep vm mid page hlow hhigh hvm hmap) hgrow

theorem InDirectory.growWhileLeft
    {pages : List ℕ} (hpages : HeapPages pages)
    (h : 0 < vm.frames.free.card → InDirectory vm live current)
    (hgrow : pages.foldlM Heap.mapHeapPage vm = .ok next) :
    0 < next.frames.free.card → InDirectory next live current := by
  refine growHeap_keeps
    (fun vm => 0 < vm.frames.free.card → InDirectory vm live current) hpages
    (fun vm next page hlow hhigh hvm hmap hleft => ?_) h hgrow
  have hmalloc : kernelMalloc = 3489660928 := rfl
  obtain ⟨phys, frames, halloc, hphys, hok⟩ := mapHeapPage_ok hmap
  have hin := hvm (pmmAllocPageFrame_left halloc hphys)
  exact hin.mapPage halloc hphys ⟨pageFlagWrite, by simp, .inr rfl⟩ hhigh
    (by omega) (hin.findsTable halloc hhigh (by omega) hok hleft) hok

theorem LeavesUnmapped.grow
    {pages : List ℕ} (hpages : HeapPages pages) (hpage : page < 0xC0000)
    (h : LeavesUnmapped vm live current pageDir page)
    (hgrow : pages.foldlM Heap.mapHeapPage vm = .ok next) :
    LeavesUnmapped next live current pageDir page := by
  refine growHeap_keeps (LeavesUnmapped · live current pageDir page) hpages
    (fun vm next other hlow hhigh hvm hmap => ?_) h hgrow
  have hmalloc : kernelMalloc = 3489660928 := rfl
  obtain ⟨phys, frames, halloc, hphys, hok⟩ := mapHeapPage_ok hmap
  exact (hvm.mapPage halloc hphys ⟨pageFlagWrite, by simp, .inr rfl⟩ hhigh
    (by omega) hok hpage (by omega)).1

end

end Memory

namespace Elf

open Stopping

/-- A page or a byte below an address. -/
def Access.Below (limit : ℕ) : Access → Prop
  | .read _ => True
  | .map virtAddr => virtAddr < limit
  | .write virtAddr _ => virtAddr < limit

instance (limit : ℕ) (access : Access) : Decidable (access.Below limit) :=
  match access with
  | .read _ => inferInstanceAs (Decidable True)
  | .map virtAddr => inferInstanceAs (Decidable (virtAddr < limit))
  | .write virtAddr _ => inferInstanceAs (Decidable (virtAddr < limit))

/-- The segments of an image lie below the page that `elf_load` maps for the
stack. -/
def BelowStack (image : ByteStore) : Prop :=
  ∀ access ∈ segmentsScript image 0 (phnum image), access.Below 0xBFFFE000

section

variable {l next : Loader} {live : List ℕ} {pageDir other page : ℕ}
  {image : ByteStore}

theorem mapNewPage_eq_ok
    {virtAddr : ℕ} (h : mapNewPage virtAddr l = (.ok (), next)) :
    ∃ phys frames vm, pmmAllocPageFrame l.vm.frames = .ok (phys, frames) ∧
      phys ≠ 0 ∧ memMapPage virtAddr phys pageFlags
        { l.vm with frames := frames } = .ok vm ∧ next.vm = vm := by
  cases halloc : pmmAllocPageFrame l.vm.frames with
  | error halt =>
      rw [mapNewPage_halts halloc] at h
      cases h
  | ok taken =>
      obtain ⟨phys, frames⟩ := taken
      by_cases hphys : phys = 0
      · rw [hphys] at halloc
        rw [mapNewPage_zero halloc] at h
        cases h
      · cases hmap : memMapPage virtAddr phys pageFlags
            { l.vm with frames := frames } with
        | error halt =>
            rw [mapNewPage_error halloc hphys hmap] at h
            cases h
        | ok vm =>
            rw [mapNewPage_ok halloc hphys hmap] at h
            cases h
            exact ⟨phys, frames, vm, rfl, hphys, hmap, rfl⟩

theorem pageFlags_spec : PageFlags pageFlags :=
  ⟨pageFlagWrite ||| pageFlagUser, by simp, .inl rfl⟩

/-- A page of the user half that gets its frame. -/
theorem mapNewPage_leaves
    (h : LeavesUnmapped l.vm live pageDir other page) {virtAddr : ℕ}
    (huser : virtAddr < kernelStart) (hpage : page < 0xC0000)
    (hne : virtAddr / 0x1000 ≠ page)
    (hmap : mapNewPage virtAddr l = (.ok (), next)) :
    LeavesUnmapped next.vm live pageDir other page ∧
      translate next.vm.word (staticFrame other) page = none := by
  have hstart : kernelStart = 3221225472 := rfl
  obtain ⟨phys, frames, vm, halloc, hphys, hok, rfl⟩ := mapNewPage_eq_ok hmap
  exact h.mapPage halloc hphys pageFlags_spec (by omega) (by omega) hok hpage hne

theorem perform_leaves
    (h : LeavesUnmapped l.vm live pageDir other page) {access : Access}
    (hbelow : access.Below (page * 0x1000)) (hpage : page < 0xC0000)
    (hperform : perform access l = (.ok (), next)) :
    LeavesUnmapped next.vm live pageDir other page := by
  have hstart : kernelStart = 3221225472 := rfl
  cases access with
  | read offset =>
      cases hperform
      exact h
  | map virtAddr =>
      have hlow : virtAddr < page * 0x1000 := hbelow
      exact (mapNewPage_leaves h (by omega) hpage (by omega) hperform).1
  | write a value =>
      have hlow : a < page * 0x1000 := hbelow
      intro hleft
      have hwrite : writeByte a value l = (.ok (), next) := hperform
      cases hstore : storeByte a value l.vm with
      | error halt =>
          rw [writeByte_error hstore] at hwrite
          cases hwrite
      | ok vm =>
          rw [writeByte_ok hstore] at hwrite
          cases hwrite
          have hframes : vm.frames = l.vm.frames := storeByte_frames hstore
          change 0 < vm.frames.free.card at hleft
          rw [hframes] at hleft
          obtain ⟨hin, hactive, hnone⟩ := h hleft
          obtain ⟨hafter, hkept⟩ := hin.storeByte_none hactive
            (by omega) hstore hpage hnone
          exact ⟨hin.storeByte (by omega) hstore, hafter, hkept⟩

theorem runAll_leaves
    {script : List Access} (h : LeavesUnmapped l.vm live pageDir other page)
    (hbelow : ∀ access ∈ script, access.Below (page * 0x1000))
    (hpage : page < 0xC0000)
    (hrun : runAll perform script l = (.ok (), next)) :
    LeavesUnmapped next.vm live pageDir other page := by
  induction script generalizing l with
  | nil =>
      cases hrun
      exact h
  | cons access script ih =>
      rw [runAll] at hrun
      cases hperform : perform access l with
      | mk outcome mid =>
          cases outcome with
          | error reason =>
              rw [bind_error hperform] at hrun
              cases hrun
          | ok done =>
              rw [bind_ok hperform] at hrun
              exact ih (perform_leaves h (hbelow access (List.mem_cons_self ..))
                hpage hperform) (fun other hother =>
                  hbelow other (List.mem_cons_of_mem _ hother)) hrun

/-- A load that returns 0 has played its script to the end. -/
theorem elfLoad_zero
    (hload : elfLoad image pageDir l = (.ok 0, next)) :
    ∃ last, runAll perform (loadScript image) (l.entered image pageDir) =
        (.ok (), last) ∧ next.vm.word = last.vm.word := by
  by_cases haccepts : Accepts image
  · cases hscript : runAll perform (loadScript image)
        (l.entered image pageDir) with
    | mk outcome last =>
        cases outcome with
        | ok done =>
            rw [elfLoad_ends haccepts hscript] at hload
            cases hload
            exact ⟨last, rfl, rfl⟩
        | error reason =>
            cases reason with
            | halt halt =>
                rw [elfLoad_faults haccepts hscript] at hload
                cases hload
            | outOfMemory =>
                obtain ⟨performed, a, rest, mid, hsplit, hrun, hpage⟩ :=
                  runAll_outOfMemory hscript
                rw [elfLoad_outOfMemory haccepts hsplit hrun hpage] at hload
                split_ifs at hload
                all_goals cases hload
  · obtain ⟨more, hreturn⟩ := elfLoad_rejects haccepts pageDir l
    rw [hreturn] at hload
    cases hload

theorem elfLoad_leaves
    (h : LeavesUnmapped l.vm live other pageDir 0xBFFFF)
    (hbelow : BelowStack image)
    (hload : elfLoad image pageDir l = (.ok 0, next)) :
    translate next.vm.word (staticFrame pageDir) 0xBFFFF = none := by
  obtain ⟨last, hrun, hword⟩ := elfLoad_zero hload
  rw [hword]
  unfold loadScript at hrun
  rw [runAll_append] at hrun
  cases hsegments : runAll perform (segmentsScript image 0 (phnum image))
      (l.entered image pageDir) with
  | mk outcome mid =>
      cases outcome with
      | error reason =>
          rw [bind_error hsegments] at hrun
          cases hrun
      | ok done =>
          rw [bind_ok hsegments, runAll_singleton] at hrun
          have hentered : LeavesUnmapped (l.entered image pageDir).vm live pageDir
              pageDir 0xBFFFF := by
            intro hleft
            obtain ⟨hin, hactive, hnone⟩ := h hleft
            exact ⟨⟨hin.tabled.change pageDir, hactive, rfl⟩, hactive, hnone⟩
          have hmid := runAll_leaves hentered (fun access hmem => ?_)
            (by norm_num) hsegments
          · exact (mapNewPage_leaves hmid (by decide) (by norm_num) (by decide)
              hrun).2
          · have hlow := hbelow access hmem
            cases access with
            | read offset => trivial
            | map virtAddr =>
                exact lt_of_lt_of_le hlow (by norm_num)
            | write virtAddr value =>
                exact lt_of_lt_of_le hlow (by norm_num)

end

end Elf

namespace Memory

/-- The user half of a new directory is empty. -/
theorem InDirectory.newPageDir
    {vm : Vm} {live : List ℕ} {current i : ℕ} (h : InDirectory vm live current)
    (hi : i < numPageDirs) (hunused : vm.pageDirsUsed i = false) :
    InDirectory (addPageDir vm i) (vm.pageDirs i :: live) current ∧
      ∀ page < 0xC0000, translate (addPageDir vm i).word
        (staticFrame (vm.pageDirs i)) page = none := by
  have hdirs := h.tabled.apart.directories
  refine ⟨⟨⟨h.tabled.apart.newPageDir hi hunused,
    h.tabled.small.newPageDir hdirs hi hunused⟩, ?_, h.cr3⟩, fun page hpage => ?_⟩
  · exact h.active.imp id (List.mem_cons_of_mem _)
  · refine translate_absent ?_
    have hrow := addPageDir_row hdirs.layout hi (page / 1024)
    rw [if_neg (by omega), if_neg (by omega)] at hrow
    rw [hrow]

end Memory

namespace Scheduler

/-- The directory and the registers of a process that is put into the list. -/
theorem appendProcess_keeps
    {s next : Scheduler} {address : ℕ} {process : Process}
    (h : s.appendProcess address process = .ok next) :
    ∃ last, next.processes address = some last ∧
      last.pageDir = process.pageDir ∧ last.regs = process.regs := by
  unfold appendProcess at h
  rw [Outcome.bind_eq_ok] at h
  obtain ⟨tail, -, h⟩ := h
  rw [Outcome.bind_eq_ok] at h
  obtain ⟨linked, hnext, h⟩ := h
  unfold linkNext at hnext
  rw [Outcome.bind_eq_ok] at hnext
  obtain ⟨last, hlast, hnext⟩ := hnext
  cases hnext
  unfold linkPrev at h
  rw [Outcome.bind_eq_ok] at h
  obtain ⟨found, hfound, h⟩ := h
  cases h
  refine ⟨_, Function.update_self _ _ _, ?_⟩
  unfold Scheduler.process at hfound hlast
  by_cases hsame : address = tail
  · subst hsame
    simp only [setProcess, Function.update_self] at hfound hlast
    cases hlast
    cases hfound
    exact ⟨rfl, rfl⟩
  · simp only [setProcess, Function.update_of_ne hsame,
      Function.update_self] at hfound
    cases hfound
    exact ⟨rfl, rfl⟩

end Scheduler

namespace Kernel

variable {k next : Kernel Device} {stdOutFile address : ℕ} {path : CString}
  {given : Allocations}

/-- The image that `create_process` reads. -/
def ReadsImage (k : Kernel Device) (stdOutFile : ℕ) (path : CString)
    (given : Allocations) (image : ByteStore) : Prop :=
  ∃ fd opened read, k.openImage stdOutFile path given = .ok (fd, opened) ∧
    opened.readImage fd given = .ok (some image, read)

/-- The pages by which the heap grows during a creation. -/
structure GrowsInHeap (given : Allocations) : Prop where
  openPages : HeapPages given.openPages
  readPages : HeapPages given.readPages
  processPages : HeapPages given.processPages
  tablePages : HeapPages given.tablePages

/-- The four bytes below `useresp` lie in a page that the directory of a process
maps present, writable and for the user. -/
structure StackUsable (vm : Vm) (process : Process) : Prop where
  directory : process.pageDir ≠ 0
  page : ∃ frame pde pte, pde % 8 = 7 ∧ pte % 8 = 7 ∧
    ∀ a, process.regs.useresp.toNat - 4 ≤ a → a < process.regs.useresp.toNat →
      translate vm.word (staticFrame process.pageDir) (a / 0x1000) =
        some (frame, pde, pte)

/-- A process is the new tail of the list, in which nothing else changes, it has
a pid of its own, and its stack is usable. -/
structure CreatesRight (k next : Kernel Device) (nodes : List ℕ)
    (address : ℕ) (process : Process) : Prop where
  created : next.processes address = some process
  list : Scheduler.ProcessList next.scheduler (nodes ++ [address])
  prev : process.prev = (k.processHead :: nodes).getLast?
  others : ∀ p ≠ address, ∃ successor, next.processes p =
    (k.processes p).map (fun old : Process => { old with next := successor })
  pid : process.pid ≠ 0 ∧ ∀ p ∈ nodes, ∀ other, k.processes p = some other →
    other.pid ≠ process.pid
  stack : StackUsable next.vm process

theorem Returns.stack_none
    {live : List ℕ} {current : ℕ} (hin : InDirectory k.vm live current)
    (hgrows : GrowsInHeap given)
    (hbelow : ∀ image, k.ReadsImage stdOutFile path given image →
      Elf.BelowStack image)
    (h : k.Returns stdOutFile path given (some address) next) :
    ∃ process, next.processes address = some process ∧
      process.regs.useresp = 0xC0000000 ∧ (process.pageDir = 0 ∨
        translate next.vm.word (staticFrame process.pageDir) 0xBFFFF =
          none) := by
  cases h with
  | created hinit hopen hfd hread hloads happend =>
      obtain ⟨process, hprocess, hdir, hregs⟩ :=
        Scheduler.appendProcess_keeps happend
      refine ⟨process, hprocess, by rw [hregs]; rfl, ?_⟩
      have himage := hbelow _ ⟨_, _, _, hopen, hread⟩
      obtain ⟨opened, vfs, hgrown, -, rfl⟩ := openImage_ok hopen
      obtain ⟨filled, vfs', middle, hfilled, -, -, rfl, -⟩ := readImage_ok hread
      obtain ⟨first, last, hfirst, hlast, hpage, -, -, rfl⟩ :=
        equip_ok hloads.equip
      obtain ⟨-, l, hload, -, rfl⟩ := loadImage_ok hloads.load
      have hready := InDirectory.growWhileLeft hgrows.processPages
        (InDirectory.growWhileLeft hgrows.readPages
          (InDirectory.growWhileLeft hgrows.openPages (fun _ => hin) hgrown)
          hfilled) hfirst
      rw [hdir]
      change _ = 0 ∨ _
      cases hunused : unusedPageDir first with
      | none =>
          rw [vmmNewPageDir_none hunused] at hpage
          exact .inl hpage
      | some i =>
          obtain ⟨hi, hfree⟩ := unusedPageDir_spec hunused
          rw [vmmNewPageDir_some hunused] at hpage hlast
          subst hpage
          have hstart : LeavesUnmapped (addPageDir first i)
              (first.pageDirs i :: live) current (first.pageDirs i) 0xBFFFF := by
            intro hleft
            obtain ⟨hnew, hempty⟩ := (hready hleft).newPageDir hi hfree
            exact ⟨hnew, .inr (List.mem_cons_self ..), hempty _ (by norm_num)⟩
          refine .inr ?_
          exact Elf.elfLoad_leaves
            (hstart.grow hgrows.tablePages (by norm_num) hlast) himage hload

theorem not_stackUsable
    {vm : Vm} {process : Process}
    (hesp : process.regs.useresp = 0xC0000000)
    (hnone : process.pageDir = 0 ∨
      translate vm.word (staticFrame process.pageDir) 0xBFFFF = none) :
    ¬StackUsable vm process := by
  rintro ⟨hdir, frame, pde, pte, -, -, hwalks⟩
  have hwalk := hwalks 0xBFFFFFFC (by rw [hesp]; decide) (by rw [hesp]; decide)
  rcases hnone with hzero | hnone
  · exact hdir hzero
  · change translate vm.word (staticFrame process.pageDir) 0xBFFFF = _ at hwalk
    rw [hnone] at hwalk
    cases hwalk

/-- No process that `create_process` returns has a usable stack. -/
theorem createProcess_stackMissing
    {initialPageDir pageDirs kernelEnd memHigh current : ℕ}
    {memory : ℕ → ℕ → ℕ} {vm : Vm} {live : List ℕ}
    (himage : KernelImage initialPageDir pageDirs kernelEnd)
    (hrun : MemoryRun
      (bootState initialPageDir pageDirs kernelEnd memHigh memory) live vm)
    (hactive : Active vm live current)
    (hvm : k.vm = memChangePageDir vm current) (hgrows : GrowsInHeap given)
    (hbelow : ∀ image, k.ReadsImage stdOutFile path given image →
      Elf.BelowStack image)
    (hcall : k.createProcess stdOutFile path given = .ok (some address, next))
    (nodes : List ℕ) (process : Process) :
    ¬k.CreatesRight next nodes address process := by
  intro hright
  have hin : InDirectory k.vm live current := by
    rw [hvm]
    exact ⟨(MemoryRun.tabled himage hrun).change current, hactive, rfl⟩
  obtain ⟨found, hfound, hesp, hnone⟩ :=
    (createProcess_returns hcall).stack_none hin hgrows hbelow
  have hsame := hright.created
  rw [hfound, Option.some.injEq] at hsame
  subst hsame
  exact not_stackUsable hesp hnone hright.stack

end Kernel

/-! ## The first process -/

namespace Kernel

theorem loadingKernel_image
    {image : ByteStore} (h : loadingKernel.ReadsImage 0xC0108000 [47, 120]
      (roomyHeap fun _ => 0) image) : Elf.BelowStack image := by
  obtain ⟨vfs, opened, hopen, hread⟩ := loadingKernel_read
  obtain ⟨fd, opened', read, hopen', hread'⟩ := h
  rw [hopen, Except.ok.injEq, Prod.mk.injEq] at hopen'
  obtain ⟨rfl, rfl⟩ := hopen'
  rw [hread, Except.ok.injEq, Prod.mk.injEq, Option.some.injEq] at hread'
  obtain ⟨rfl, -⟩ := hread'
  unfold Elf.BelowStack
  decide +kernel

theorem roomyHeap_grows (memory : ByteStore) :
    GrowsInHeap (roomyHeap memory) where
  openPages _ h := absurd h List.not_mem_nil
  readPages _ h := absurd h List.not_mem_nil
  processPages _ h := absurd h List.not_mem_nil
  tablePages _ h := absurd h List.not_mem_nil

/-- The first process. -/
theorem createProcess_stackMissing_firstProcess :
    ∃ next, loadingKernel.createProcess 0xC0108000 [47, 120]
        (roomyHeap fun _ => 0) = .ok (some 0xD0006000, next) ∧
      ∀ nodes process,
        ¬loadingKernel.CreatesRight next nodes 0xD0006000 process := by
  obtain ⟨next, hcall⟩ := loadingKernel_creates
  exact ⟨next, hcall, createProcess_stackMissing kernelImage_sample
    (MemoryRun.boot : MemoryRun sampleBoot [] sampleBoot)
    (.inl rfl : Active sampleBoot [] 0xC0101000) rfl (roomyHeap_grows _)
    (fun _ => loadingKernel_image) hcall⟩

/-- Its stack begins in a page that its directory does not map. -/
theorem createProcess_stackPage :
    Elf.Accepts (Elf.sampleImage 0x8048000) ∧
      Elf.BelowStack (Elf.sampleImage 0x8048000) ∧
      loadingKernel.ReadsImage 0xC0108000 [47, 120] (roomyHeap fun _ => 0)
        (Elf.sampleImage 0x8048000) ∧
      ∃ next process, loadingKernel.createProcess 0xC0108000 [47, 120]
          (roomyHeap fun _ => 0) = .ok (some 0xD0006000, next) ∧
        next.processes 0xD0006000 = some process ∧
        process.regs.useresp = 0xC0000000 ∧ ¬StackUsable next.vm process := by
  obtain ⟨vfs, opened, hopen, hread⟩ := loadingKernel_read
  have hreads : loadingKernel.ReadsImage 0xC0108000 [47, 120]
      (roomyHeap fun _ => 0) (Elf.sampleImage 0x8048000) :=
    ⟨_, _, _, hopen, hread⟩
  obtain ⟨next, hcall⟩ := loadingKernel_creates
  have hin : InDirectory loadingKernel.vm [] 0xC0101000 :=
    ⟨MemoryRun.tabled kernelImage_sample .boot, .inl rfl, rfl⟩
  obtain ⟨process, hprocess, hesp, hnone⟩ :=
    (createProcess_returns hcall).stack_none hin (roomyHeap_grows _)
      fun _ => loadingKernel_image
  exact ⟨Elf.sampleImage_accepts _, loadingKernel_image hreads, hreads, next,
    process, hcall, hprocess, hesp, not_stackUsable hesp hnone⟩

end Kernel

end ClOs
