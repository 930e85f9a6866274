import ClOs.TablesApart

/-!
# Walks of the page tables

What `mem_map_page` and `mem_unmap_page` do to the walk of every page in a
directory that maps itself.  The page of the recursive mapping that shows a page
table appears with the table and goes with it.
-/

namespace ClOs.Memory

theorem translate_keep
    {word word' : ℕ → ℕ → ℕ} {dir page : ℕ}
    (hdir : word' dir (page / 1024) = word dir (page / 1024))
    (htable : ∀ target, Points word dir (page / 1024) target →
      (word dir (page / 1024)).testBit 7 = false →
        word' target (page % 1024) = word target (page % 1024)) :
    translate word' dir page = translate word dir page := by
  unfold translate
  rw [hdir]
  rcases Nat.mod_two_eq_zero_or_one (word dir (page / 1024)) with
    habsent | hpresent
  · simp only [habsent, if_true]
  · cases hlarge : (word dir (page / 1024)).testBit 7 with
    | true => simp only [hlarge, if_true]
    | false => simp only [htable _ ⟨hpresent, rfl⟩ hlarge]

/-- A page that no entry of the page table maps, before and after. -/
theorem translate_still_none
    {word word' : ℕ → ℕ → ℕ} {dir page : ℕ}
    (hdir : word' dir (page / 1024) = word dir (page / 1024))
    (htable : ∀ target, Points word dir (page / 1024) target →
      word' target (page % 1024) % 2 = 0 ∧ word target (page % 1024) % 2 = 0) :
    translate word' dir page = translate word dir page := by
  unfold translate
  rw [hdir]
  rcases Nat.mod_two_eq_zero_or_one (word dir (page / 1024)) with
    habsent | hpresent
  · simp only [habsent, if_true]
  · obtain ⟨hafter, hbefore⟩ := htable _ ⟨hpresent, rfl⟩
    simp only [hafter, hbefore, if_true]

structure MapsPage (word word' : ℕ → ℕ → ℕ) (dir virtAddr frame flags : ℕ) :
    Prop where
  mapped : ∃ pde, translate word' dir (virtAddr / 0x1000) =
    some (frame, pde, flags)
  others : ∀ page < 0x100000, page ≠ virtAddr / 0x1000 →
    ¬(word dir (virtAddr / 0x400000) % 2 = 0 ∧
      page = 0xFFC00 + virtAddr / 0x400000) →
    translate word' dir page = translate word dir page

section

variable {vm next : Vm} {live : List ℕ} {pageDir virtAddr flags : ℕ}

/-- What entry 1023 of a directory that maps itself leads to. -/
theorem tableAt_cases
    (hself : Points vm.word (staticFrame pageDir) 1023 (staticFrame pageDir))
    {x target : ℕ} (hx : x < 1024)
    (hpoints : Points vm.word (staticFrame pageDir) x target) :
    (x = 1023 ∧ target = staticFrame pageDir) ∨ x < 1023 := by
  rcases Nat.lt_or_ge x 1023 with hlow | hhigh
  · exact .inr hlow
  · obtain rfl : x = 1023 := by omega
    exact .inl ⟨rfl, hpoints.2.symm.trans hself.2⟩

theorem Apart.walk_present
    (h : Apart vm live) (hactive : Active vm live pageDir)
    (hself : Points vm.word (staticFrame pageDir) 1023 (staticFrame pageDir))
    (hpd : virtAddr / 0x400000 < 1023) {target : ℕ}
    (htable : TableAt vm pageDir (virtAddr / 0x400000) target)
    (entry : ℕ) {page : ℕ} (hpage : page < 0x100000)
    (hne : page ≠ virtAddr / 0x1000) :
    translate (setAt vm.word target (virtAddr / 0x1000 % 0x400) entry)
        (staticFrame pageDir) page =
      translate vm.word (staticFrame pageDir) page := by
  have htarget : IsTable vm live target :=
    ⟨pageDir, hactive, _, hpd, htable⟩
  have hdir := htarget.ne_dir h.directories hactive
  refine translate_keep (setAt_of_ne _ _ (.inl hdir.symm)) ?_
  intro other hother hsmall
  refine setAt_of_ne _ _ ?_
  rcases tableAt_cases hself (by omega) hother with ⟨-, rfl⟩ | hlow
  · exact .inl hdir.symm
  · by_cases hsame : other = target
    · subst hsame
      have hx := (h.unique pageDir hactive pageDir hactive _ hpd _ hlow other
        htable ⟨hother, hsmall⟩).1
      exact .inr (by omega)
    · exact .inl hsame

theorem Apart.maps_present
    (h : Apart vm live) (hactive : Active vm live pageDir)
    (hself : Points vm.word (staticFrame pageDir) 1023 (staticFrame pageDir))
    (hpd : virtAddr / 0x400000 < 1023) {target entry frame : ℕ}
    (htable : TableAt vm pageDir (virtAddr / 0x400000) target)
    (hpresent : flags % 2 = 1) (hframe : entry / 0x1000 = frame)
    (hlow : entry % 0x1000 = flags) :
    MapsPage vm.word (setAt vm.word target (virtAddr / 0x1000 % 0x400) entry)
      (staticFrame pageDir) virtAddr frame flags := by
  have htarget : IsTable vm live target :=
    ⟨pageDir, hactive, _, hpd, htable⟩
  have hdir := htarget.ne_dir h.directories hactive
  have hindex : virtAddr / 0x1000 / 1024 = virtAddr / 0x400000 := by omega
  refine ⟨?_, fun page hpage hne _ =>
    h.walk_present hactive hself hpd htable entry hpage hne⟩
  have hat := htable
  rw [← hindex] at hat
  have hsame : setAt vm.word target (virtAddr / 0x1000 % 0x400) entry
      (staticFrame pageDir) (virtAddr / 0x1000 / 1024) =
        vm.word (staticFrame pageDir) (virtAddr / 0x1000 / 1024) :=
    setAt_of_ne _ _ (.inl hdir.symm)
  obtain ⟨pde, hwalk⟩ := translate_table (hat.1.congr hsame)
    (by rw [hsame]; exact hat.2) (setAt_same _ _ _ entry)
  refine ⟨pde, ?_⟩
  rw [hwalk, if_neg (by omega), hframe, hlow]

theorem Apart.maps_absent
    (h : Apart vm live) (hactive : Active vm live pageDir)
    (hself : Points vm.word (staticFrame pageDir) 1023 (staticFrame pageDir))
    (hpd : virtAddr / 0x400000 < 1023) {address entry frame : ℕ}
    (habsent : vm.word (staticFrame pageDir) (virtAddr / 0x400000) % 2 = 0)
    (haligned : address % 0x1000 = 0) (hflags : flags < 0x400)
    (hsmall : flags.testBit 7 = false) (hpresent : flags % 2 = 1)
    (hnot : ¬IsTable vm live (address / 0x1000))
    (hframe : entry / 0x1000 = frame) (hlow : entry % 0x1000 = flags)
    (hdir : address / 0x1000 ≠ staticFrame pageDir)
    (hwords : NewTable vm next pageDir (virtAddr / 0x400000)
      (virtAddr / 0x1000 % 0x400) address flags entry) :
    TableAt next pageDir (virtAddr / 0x400000) (address / 0x1000) ∧
      MapsPage vm.word next.word (staticFrame pageDir) virtAddr frame
        flags := by
  have hindex : virtAddr / 0x1000 / 1024 = virtAddr / 0x400000 := by omega
  have hat : TableAt next pageDir (virtAddr / 0x400000)
      (address / 0x1000) := by
    have hmask : flags &&& 0x3FF = flags := by
      have hmod := Nat.and_two_pow_sub_one_eq_mod flags 10
      rw [show 2 ^ 10 - 1 = 0x3FF from rfl] at hmod
      rw [hmod]
      omega
    have htable := tableEntry_small haligned hsmall
    rw [hmask] at htable
    unfold TableAt Points
    rw [hwords.directory]
    exact ⟨tableEntry_spec address hflags, htable⟩
  refine ⟨hat, ?_, ?_⟩
  · rw [← hindex] at hat
    obtain ⟨pde, hwalk⟩ := translate_table hat.1 hat.2 hwords.page
    refine ⟨pde, ?_⟩
    rw [hwalk, if_neg (by omega), hframe, hlow]
  · intro page hpage hne hshown
    by_cases hx : page / 1024 = virtAddr / 0x400000
    · rw [← hx] at hat habsent
      have hzero := hwords.zero (page % 1024) (by omega) (by omega)
      obtain ⟨pde, hwalk⟩ := translate_table hat.1 hat.2 hzero
      rw [translate_absent habsent, hwalk]
      simp
    · refine translate_keep
        (hwords.others _ hdir.symm _ fun hcell => hx hcell.2) ?_
      intro other hother hsmall'
      rcases tableAt_cases hself (by omega) hother with ⟨hrow, rfl⟩ | hrow
      · refine hwords.others _ hdir.symm _ ?_
        rintro ⟨-, hcell⟩
        exact hshown ⟨habsent, by omega⟩
      · have hold : IsTable vm live other :=
          ⟨pageDir, hactive, _, hrow, hother, hsmall'⟩
        refine hwords.others _ ?_ _ ?_
        · rintro rfl
          exact hnot hold
        · rintro ⟨rfl, -⟩
          exact hold.ne_dir h.directories hactive rfl

/-- Mapping a page in a directory that maps itself. -/
theorem Apart.mapsPage
    (h : Apart vm live) (hactive : Active vm live pageDir)
    (hself : Points vm.word (staticFrame pageDir) 1023 (staticFrame pageDir))
    (hpd : virtAddr / 0x400000 < 1023)
    (hlarge : NotLarge vm pageDir (virtAddr / 0x400000))
    (hfree : vm.word (staticFrame pageDir) (virtAddr / 0x400000) % 2 = 0 →
      HasFree vm.frames)
    {phyAddr : ℕ} (hphy : phyAddr < 4294967296)
    (haligned : phyAddr % 0x1000 = 0) (hflags : PageFlags flags)
    (hmaps : MapsIn vm (staticFrame pageDir) (virtAddr / 0x400000)
      (virtAddr / 0x1000 % 0x400) (flags &&& 0x3FF)
      ((phyAddr &&& pageFlagFrame) ||| (flags &&& 0x3FF)) next) :
    MapsPage vm.word next.word (staticFrame pageDir) virtAddr
      (phyAddr / 0x1000) flags := by
  obtain ⟨hmask, hsmall, hpresent, hlt⟩ := hflags.spec
  obtain ⟨-, hframe, hlow⟩ := pageEntry_spec hphy haligned hflags
  cases hmaps with
  | present htable =>
      exact h.maps_present hactive hself hpd ⟨htable, hlarge htable.1⟩ hpresent
        hframe hlow
  | @absent address count frames habsent halloc =>
      obtain ⟨free, hrange, hhigh, -, hclear⟩ := hfree habsent
      obtain ⟨htaken, -, hbit, -⟩ := (pmmAllocPageFrame_taken halloc).resolve_left
        (h.directories.alloc_ne_zero halloc hrange hhigh hclear)
      have hnot : ¬IsTable vm live (address / 0x1000) := by
        intro htable
        rw [(h.table _ htable).2] at hbit
        cases hbit
      have hdir := h.directories.fresh hactive halloc
      refine (h.maps_absent hactive hself hpd habsent htaken hlt hsmall hpresent
        hnot hframe hlow hdir ?_).2
      refine newTable_words hdir ?_
      rw [hmask]

/-- The copy to the other directories changes no walk of `initial_page_dir`. -/
theorem Apart.leave_translate
    (h : Apart vm live) (pageDir page : ℕ) (hpage : page < 0x100000) :
    translate (leaveKernelHalf pageDir vm).word
        (staticFrame vm.initialPageDir) page =
      translate vm.word (staticFrame vm.initialPageDir) page := by
  unfold leaveKernelHalf
  split_ifs
  · have hlayout := h.directories.layout
    refine translate_keep (syncPageDirs_initial hlayout _) ?_
    intro target htarget hsmall
    rcases tableAt_cases h.directories.initial_self (by omega) htarget with
      ⟨-, rfl⟩ | hlow
    · exact syncPageDirs_initial hlayout _
    · exact syncPageDirs_table h.directories
        ⟨_, .inl rfl, _, hlow, htarget, hsmall⟩ _
  · rfl

/-! ## Unmapping -/

/-- A frame of the range that is allocated. -/
structure Owned (frames : Frames) (frame : ℕ) : Prop where
  low : frames.pageFrameMin ≤ frame
  high : frame < frames.pageFrameMax
  bound : frame < numPageFrames
  set : frames.physicalMemoryBitmap.bit frame = true

def freed (frames : Frames) (frame : ℕ) : Frames :=
  { frames with
    totalAlloc := sub32 frames.totalAlloc 1
    physicalMemoryBitmap := frames.physicalMemoryBitmap.clearBit frame }

theorem freed_bit
    (frames : Frames) (frame other : ℕ) :
    (freed frames frame).physicalMemoryBitmap.bit other =
      (frames.physicalMemoryBitmap.bit other && !decide (other = frame)) := by
  unfold freed
  simp only [ByteStore.bit_clearBit]
  by_cases hsame : frame = other
  · simp [hsame]
  · simp [hsame, Ne.symm hsame]

theorem Owned.free
    {frames : Frames} {frame address : ℕ} (h : Owned frames frame)
    (hframe : address / 0x1000 = frame) :
    pmmFreePageFrame address frames = .ok (freed frames frame) := by
  subst hframe
  have hnum : numPageFrames = 65536 := by norm_num [numPageFrames]
  obtain ⟨hlow, hhigh, hbound, hset⟩ := h
  unfold pmmFreePageFrame
  simp only
  rw [if_neg (by omega), if_neg (by omega), if_pos hset]
  rfl

theorem Owned.freed
    {frames : Frames} {frame other : ℕ} (h : Owned frames frame)
    (hne : frame ≠ other) : Owned (Memory.freed frames other) frame where
  low := h.low
  high := h.high
  bound := h.bound
  set := by
    rw [freed_bit, h.set]
    simp [hne]

/-- A frame given by the allocator, with what taking it did to the bitmap. -/
structure Takes (frames next : Frames) (address : ℕ) : Prop where
  min : next.pageFrameMin = frames.pageFrameMin
  max : next.pageFrameMax = frames.pageFrameMax
  aligned : address % 0x1000 = 0
  low : frames.pageFrameMin ≤ address / 0x1000
  high : address / 0x1000 < frames.pageFrameMax
  bound : address / 0x1000 < numPageFrames
  clear : frames.physicalMemoryBitmap.bit (address / 0x1000) = false
  bits : ∀ frame, next.physicalMemoryBitmap.bit frame =
    (frames.physicalMemoryBitmap.bit frame || decide (frame = address / 0x1000))

theorem pmmAllocPageFrame_takes
    {frames after : Frames} {address : ℕ}
    (halloc : pmmAllocPageFrame frames = .ok (address, after))
    (hzero : address ≠ 0) : Takes frames after address := by
  rcases pmmAllocFrom_spec halloc with
    ⟨rfl, -⟩ | ⟨taken, hlow, hhigh, hbound, hclear, rfl, rfl⟩
  · exact absurd rfl hzero
  · have hnum : numPageFrames = 65536 := by norm_num [numPageFrames]
    have hvalue : u32 (taken * 0x1000) = taken * 0x1000 :=
      u32_of_lt (by omega)
    have hframe : u32 (taken * 0x1000) / 0x1000 = taken := by
      rw [hvalue, Nat.mul_div_cancel _ (by norm_num)]
    exact {
      min := rfl
      max := rfl
      aligned := by
        rw [hvalue]
        exact Nat.mul_mod_left _ _
      low := by rwa [hframe]
      high := by
        rw [hframe]
        omega
      bound := by rwa [hframe]
      clear := by rwa [hframe]
      bits := by
        intro frame
        rw [hframe]
        simp only [ByteStore.bit_setBit, eq_comm] }

theorem Takes.owned
    {frames next : Frames} {address : ℕ} (h : Takes frames next address) :
    Owned next (address / 0x1000) where
  low := by
    rw [h.min]
    exact h.low
  high := by
    rw [h.max]
    exact h.high
  bound := h.bound
  set := by
    rw [h.bits]
    simp

theorem Owned.take
    {frames next : Frames} {frame address : ℕ} (h : Owned frames frame)
    (htake : Takes frames next address) : Owned next frame where
  low := by
    rw [htake.min]
    exact h.low
  high := by
    rw [htake.max]
    exact h.high
  bound := h.bound
  set := by
    rw [htake.bits, h.set]
    simp

/-- Freeing a frame that was taken gives the bits of before. -/
theorem Takes.freed_bits
    {frames next : Frames} {address : ℕ} (h : Takes frames next address)
    (frame : ℕ) :
    (freed next (address / 0x1000)).physicalMemoryBitmap.bit frame =
      frames.physicalMemoryBitmap.bit frame := by
  rw [freed_bit, h.bits]
  by_cases hsame : frame = address / 0x1000
  · rw [hsame, h.clear]
    simp
  · simp [hsame]

theorem pmmAllocFrom_finds
    {frames : Frames} {count first frame : ℕ} (hlow : first ≤ frame)
    (hhigh : frame < first + count) (hbound : frame < numPageFrames)
    (hclear : frames.physicalMemoryBitmap.bit frame = false) :
    ∃ address after, pmmAllocFrom frames count first = .ok (address, after) := by
  have hnum : numPageFrames = 65536 := by norm_num [numPageFrames]
  induction count generalizing first with
  | zero => omega
  | succ count ih =>
      simp only [pmmAllocFrom]
      rw [if_neg (by omega)]
      split_ifs with hbit
      · have hne : first ≠ frame := by
          rintro rfl
          rw [hclear] at hbit
          cases hbit
        exact ih (by omega) (by omega)
      · exact ⟨_, _, rfl⟩

theorem HasFree.alloc
    {frames : Frames} (h : HasFree frames) :
    ∃ address after, pmmAllocPageFrame frames = .ok (address, after) := by
  obtain ⟨frame, hlow, hhigh, hbound, hclear⟩ := h
  exact pmmAllocFrom_finds hlow (by omega) hbound hclear

theorem HasFree.alloc_ne_zero
    {frames after : Frames} {address : ℕ} (h : HasFree frames)
    (hmin : 0 < frames.pageFrameMin)
    (halloc : pmmAllocPageFrame frames = .ok (address, after)) :
    address ≠ 0 := by
  obtain ⟨frame, hlow, hhigh, -, hclear⟩ := h
  rintro rfl
  have hfull := pmmAllocFrom_full hmin halloc hlow (by omega)
  rw [hclear] at hfull
  cases hfull

theorem freePage_owned
    {entry : ℕ} (hentry : entry < 4294967296) (hpos : 0 < entry / 0x1000)
    (h : Owned vm.frames (entry / 0x1000)) :
    freePage entry vm =
      .ok { vm with frames := freed vm.frames (entry / 0x1000) } := by
  have hframe := frame_of_entry hentry
  have hne : entry &&& pageFlagFrame ≠ 0 := by
    intro hzero
    rw [hzero] at hframe
    omega
  unfold freePage freeFrame
  rw [if_pos hne, h.free hframe]
  rfl

def clearedPage (vm : Vm) (frames : Frames) (target ptIndex : ℕ) : Vm :=
  { vm with
    frames := frames
    word := setAt vm.word target ptIndex 0
    memNumVpages := sub32 vm.memNumVpages 1 }

theorem Window.clearedPage
    {dir target ptIndex : ℕ} (h : Window vm dir) (frames : Frames)
    (hdir : target ≠ dir) (hcr3 : target ≠ vm.cr3 / 0x1000) :
    Window (Memory.clearedPage vm frames target ptIndex) dir :=
  h.congr rfl (setAt_of_ne _ _ (.inl hcr3.symm))
    (setAt_of_ne _ _ (.inl hdir.symm))

/-- `mem_unmap_page` after its two tests, as far as the look at the table. -/
theorem Window.unmapPresent_eq
    {dir pdIndex ptIndex target : ℕ} {frames : Frames} (h : Window vm dir)
    (htable : Points vm.word dir pdIndex target)
    (hdir : target ≠ dir) (hcr3 : target ≠ vm.cr3 / 0x1000)
    (hfree : freePage (vm.word target ptIndex) vm =
      .ok { vm with frames := frames }) :
    Memory.unmapPresent virtAddr pdIndex ptIndex (vm.word target ptIndex) vm =
      if ((List.range 1024).all (fun j =>
          setAt vm.word target ptIndex 0 target j % 2 = 0) = true) ∧
          virtAddr < kernelStart then
        dropPageTable pdIndex (Memory.clearedPage vm frames target ptIndex)
      else .ok (Memory.clearedPage vm frames target ptIndex) := by
  have hfreed : Window { vm with frames := frames } dir := ⟨h.outer, h.self⟩
  have hcleared : Window (Memory.clearedPage vm frames target ptIndex) dir :=
    h.clearedPage frames hdir hcr3
  have hpoints : Points (Memory.clearedPage vm frames target ptIndex).word dir
      pdIndex target :=
    htable.congr (setAt_of_ne _ _ (.inl hdir.symm))
  have hempty : tableEmpty (Memory.clearedPage vm frames target ptIndex)
      pdIndex = .ok ((List.range 1024).all
        (fun j => setAt vm.word target ptIndex 0 target j % 2 = 0)) := by
    simp only [tableEmpty, hcleared.tableFrame hpoints, bind, Except.bind]
    rfl
  have hwrite : writeEntry { vm with frames := frames } pdIndex ptIndex 0 =
      .ok (Vm.withWord { vm with frames := frames }
        (setAt vm.word target ptIndex 0)) :=
    hfreed.writeTable htable ptIndex 0
  unfold Memory.clearedPage at hempty
  unfold Memory.unmapPresent
  simp only [hfree, bind, Except.bind, hwrite, Vm.withWord, hempty]
  rfl

theorem Window.dropPageTable_eq
    {dir pdIndex : ℕ} {frames : Frames} (h : Window vm dir)
    (hdrop : pmmFreePageFrame (vm.word dir pdIndex &&& pageFlagFrame)
      vm.frames = .ok frames) :
    Memory.dropPageTable pdIndex vm = .ok { vm with
      frames := frames
      word := setAt vm.word dir pdIndex 0 } := by
  unfold Memory.dropPageTable freeFrame
  rw [h.readDirectory]
  simp only [bind, Except.bind]
  rw [h.writeDirectory]
  simp only [Vm.withWord, hdrop]
  rfl

theorem Window.memUnmapPage_present
    {dir target : ℕ} (h : Window vm dir) (huser : virtAddr < kernelStart)
    (htable : Points vm.word dir (virtAddr / 0x400000) target)
    (hpage : vm.word target (virtAddr / 0x1000 % 0x400) % 2 = 1) :
    memUnmapPage virtAddr vm = Memory.unmapPresent virtAddr
      (virtAddr / 0x400000) (virtAddr / 0x1000 % 0x400)
      (vm.word target (virtAddr / 0x1000 % 0x400)) vm := by
  have hpresent := htable.1
  have hstart : kernelStart = 3221225472 := rfl
  unfold memUnmapPage
  rw [if_neg (by omega), enterKernelHalf_user vm huser]
  simp only [bind, Except.bind]
  rw [h.readDirectory]
  simp only
  rw [if_neg (by omega), h.readTable htable]
  simp only
  rw [if_neg (by omega)]
  cases Memory.unmapPresent virtAddr (virtAddr / 0x400000)
    (virtAddr / 0x1000 % 0x400)
    (vm.word target (virtAddr / 0x1000 % 0x400)) vm with
  | error halt => rfl
  | ok unmapped =>
      simp only [leaveKernelHalf]
      rw [if_neg (by omega)]
      rfl

theorem Window.unmap_page
    {dir target entry : ℕ} (h : Window vm dir) (huser : virtAddr < kernelStart)
    (htable : Points vm.word dir (virtAddr / 0x400000) target)
    (hdir : target ≠ dir) (hcr3 : target ≠ vm.cr3 / 0x1000)
    (hword : vm.word target (virtAddr / 0x1000 % 0x400) = entry)
    (hpresent : entry % 2 = 1) (hentry : entry < 4294967296)
    (hpos : 0 < entry / 0x1000) (howned : Owned vm.frames (entry / 0x1000))
    (hother : ∃ j < 1024, j ≠ virtAddr / 0x1000 % 0x400 ∧
      vm.word target j % 2 = 1) :
    memUnmapPage virtAddr vm = .ok (Memory.clearedPage vm
      (freed vm.frames (entry / 0x1000)) target
      (virtAddr / 0x1000 % 0x400)) := by
  subst hword
  rw [h.memUnmapPage_present huser htable hpresent,
    h.unmapPresent_eq htable hdir hcr3 (freePage_owned hentry hpos howned)]
  refine if_neg ?_
  rintro ⟨hall, -⟩
  obtain ⟨j, hj, hne, hset⟩ := hother
  rw [List.all_eq_true] at hall
  have hclear := hall j (List.mem_range.2 hj)
  rw [setAt_of_ne _ _ (.inr hne)] at hclear
  simp [hset] at hclear

theorem Window.unmap_table
    {dir target entry : ℕ} (h : Window vm dir) (huser : virtAddr < kernelStart)
    (htable : Points vm.word dir (virtAddr / 0x400000) target)
    (hdir : target ≠ dir) (hcr3 : target ≠ vm.cr3 / 0x1000)
    (hword : vm.word target (virtAddr / 0x1000 % 0x400) = entry)
    (hpresent : entry % 2 = 1) (hentry : entry < 4294967296)
    (hpos : 0 < entry / 0x1000) (howned : Owned vm.frames (entry / 0x1000))
    (htarget : Owned vm.frames target) (hne : target ≠ entry / 0x1000)
    (hpde : vm.word dir (virtAddr / 0x400000) < 4294967296)
    (hempty : ∀ j < 1024, j ≠ virtAddr / 0x1000 % 0x400 →
      vm.word target j % 2 = 0) :
    memUnmapPage virtAddr vm = .ok { Memory.clearedPage vm
      (freed (freed vm.frames (entry / 0x1000)) target) target
      (virtAddr / 0x1000 % 0x400) with
        word := setAt (setAt vm.word target (virtAddr / 0x1000 % 0x400) 0) dir
          (virtAddr / 0x400000) 0 } := by
  subst hword
  have hkeep : setAt vm.word target (virtAddr / 0x1000 % 0x400) 0 dir
      (virtAddr / 0x400000) = vm.word dir (virtAddr / 0x400000) :=
    setAt_of_ne _ _ (.inl hdir.symm)
  rw [h.memUnmapPage_present huser htable hpresent,
    h.unmapPresent_eq htable hdir hcr3 (freePage_owned hentry hpos howned)]
  have hall : (List.range 1024).all (fun j =>
      setAt vm.word target (virtAddr / 0x1000 % 0x400) 0 target j % 2 = 0) =
        true := by
    rw [List.all_eq_true]
    intro j hj
    by_cases hsame : j = virtAddr / 0x1000 % 0x400
    · rw [hsame, setAt_same]
      rfl
    · rw [setAt_of_ne _ _ (.inr hsame), hempty j (List.mem_range.1 hj) hsame]
      rfl
  rw [if_pos ⟨hall, huser⟩]
  refine (h.clearedPage _ hdir hcr3).dropPageTable_eq ?_
  have hframe : (vm.word dir (virtAddr / 0x400000) &&& pageFlagFrame) /
      0x1000 = target := (frame_of_entry hpde).trans htable.2
  have hdrop := (htarget.freed hne).free hframe
  rw [← hkeep] at hdrop
  exact hdrop

/-- The state before a page was mapped, as far as walks and frames tell. -/
structure Restores (vm last : Vm) (dir : ℕ) : Prop where
  walks : ∀ page < 0x100000,
    translate last.word dir page = translate vm.word dir page
  bits : ∀ frame, last.frames.physicalMemoryBitmap.bit frame =
    vm.frames.physicalMemoryBitmap.bit frame

/-- What the round trip is about: a page of the user half, the frame that has
been given for it, and the entry that maps it there. -/
structure Given (vm : Vm) (frames : Frames) (virtAddr phyAddr entry : ℕ) :
    Prop where
  user : virtAddr < kernelStart
  takes : Takes vm.frames frames phyAddr
  pos : 0 < phyAddr / 0x1000
  present : entry % 2 = 1
  bound : entry < 4294967296
  frame : entry / 0x1000 = phyAddr / 0x1000

theorem Given.index
    {frames : Frames} {phyAddr entry : ℕ}
    (h : Given vm frames virtAddr phyAddr entry) :
    virtAddr / 0x400000 < 768 := by
  have hstart : kernelStart = 3221225472 := rfl
  have huser := h.user
  omega

theorem Apart.restores_present
    (h : Apart vm live) (hactive : Active vm live pageDir)
    (hself : Points vm.word (staticFrame pageDir) 1023 (staticFrame pageDir))
    {frames : Frames} {phyAddr entry target count : ℕ}
    (hgiven : Given vm frames virtAddr phyAddr entry)
    (htable : TableAt vm pageDir (virtAddr / 0x400000) target)
    (hnone : vm.word target (virtAddr / 0x1000 % 0x400) % 2 = 0)
    (hother : ∃ j < 1024, vm.word target j % 2 = 1)
    (hnext : next = { memChangePageDir { vm with frames := frames } pageDir with
      word := setAt vm.word target (virtAddr / 0x1000 % 0x400) entry
      memNumVpages := count }) :
    ∃ last, memUnmapPage virtAddr next = .ok last ∧
      Restores vm last (staticFrame pageDir) := by
  have hpd := hgiven.index
  have htarget : IsTable vm live target :=
    ⟨pageDir, hactive, _, by omega, htable⟩
  have hdir := htarget.ne_dir h.directories hactive
  have hrow : ∀ x, setAt vm.word target (virtAddr / 0x1000 % 0x400) entry
      (staticFrame pageDir) x = vm.word (staticFrame pageDir) x :=
    fun x => setAt_of_ne _ _ (.inl hdir.symm)
  have hwindow : Window next (staticFrame pageDir) := by
    rw [hnext]
    exact ⟨hself.congr (hrow 1023), hself.congr (hrow 1023)⟩
  have hpoints : Points next.word (staticFrame pageDir)
      (virtAddr / 0x400000) target := by
    rw [hnext]
    exact htable.1.congr (hrow _)
  have hword : next.word target (virtAddr / 0x1000 % 0x400) = entry := by
    rw [hnext]
    exact setAt_same _ _ _ _
  have howned : Owned next.frames (entry / 0x1000) := by
    rw [hnext, hgiven.frame]
    exact hgiven.takes.owned
  have hpos : 0 < entry / 0x1000 := by
    rw [hgiven.frame]
    exact hgiven.pos
  have hanother : ∃ j < 1024, j ≠ virtAddr / 0x1000 % 0x400 ∧
      next.word target j % 2 = 1 := by
    obtain ⟨j, hj, hset⟩ := hother
    have hne : j ≠ virtAddr / 0x1000 % 0x400 := by
      rintro rfl
      omega
    refine ⟨j, hj, hne, ?_⟩
    rw [hnext]
    exact (congrArg (fun word => word % 2)
      (setAt_of_ne _ _ (.inr hne))).trans hset
  have hcr3 : target ≠ next.cr3 / 0x1000 := by
    rw [hnext]
    exact hdir
  refine ⟨_, hwindow.unmap_page hgiven.user hpoints hdir hcr3 hword
    hgiven.present hgiven.bound hpos howned hanother, ?_, ?_⟩
  · intro page hpage
    have hlast : (clearedPage next (freed next.frames (entry / 0x1000)) target
        (virtAddr / 0x1000 % 0x400)).word =
          setAt vm.word target (virtAddr / 0x1000 % 0x400) 0 := by
      rw [hnext]
      funext g j
      unfold clearedPage
      by_cases hcell : g = target ∧ j = virtAddr / 0x1000 % 0x400
      · obtain ⟨rfl, rfl⟩ := hcell
        rw [setAt_same]
        exact setAt_same _ _ _ _
      · have hne : g ≠ target ∨ j ≠ virtAddr / 0x1000 % 0x400 := by
          by_contra hsame
          exact hcell (by omega)
        rw [setAt_of_ne _ _ hne]
        exact (setAt_of_ne _ _ hne).trans (setAt_of_ne _ _ hne)
    rw [hlast]
    by_cases hsame : page = virtAddr / 0x1000
    · have hindex : page / 1024 = virtAddr / 0x400000 := by omega
      rw [← hindex] at htable
      refine translate_still_none (setAt_of_ne _ _ (.inl hdir.symm)) ?_
      intro other hpoints'
      obtain rfl : target = other := htable.1.2.symm.trans hpoints'.2
      rw [hsame, setAt_same]
      exact ⟨rfl, hnone⟩
    · exact h.walk_present hactive hself (by omega) htable 0 hpage hsame
  · intro frame
    have hframes : (clearedPage next (freed next.frames (entry / 0x1000)) target
        (virtAddr / 0x1000 % 0x400)).frames =
          freed frames (phyAddr / 0x1000) := by
      rw [hnext, hgiven.frame]
      rfl
    rw [hframes]
    exact hgiven.takes.freed_bits frame

theorem Apart.restores_absent
    (h : Apart vm live) (hactive : Active vm live pageDir)
    (hself : Points vm.word (staticFrame pageDir) 1023 (staticFrame pageDir))
    {frames after : Frames} {phyAddr entry address count : ℕ}
    (hgiven : Given vm frames virtAddr phyAddr entry)
    (habsent : vm.word (staticFrame pageDir) (virtAddr / 0x400000) % 2 = 0)
    (halloc : pmmAllocPageFrame frames = .ok (address, after))
    (hzero : address ≠ 0) (hflags : flags < 0x400)
    (hnext : next = { memChangePageDir { vm with frames := frames } pageDir with
      frames := after
      word := setAt (newTable vm.word (staticFrame pageDir)
        (virtAddr / 0x400000) address flags) (address / 0x1000)
        (virtAddr / 0x1000 % 0x400) entry
      memNumVpages := count }) :
    ∃ last, memUnmapPage virtAddr next = .ok last ∧
      Restores vm last (staticFrame pageDir) := by
  have hpd := hgiven.index
  have htakes := pmmAllocPageFrame_takes halloc hzero
  have hfresh : frames.physicalMemoryBitmap.bit (address / 0x1000) = false :=
    htakes.clear
  have hsubset : ∀ frame, vm.frames.physicalMemoryBitmap.bit frame = true →
      frames.physicalMemoryBitmap.bit frame = true := by
    intro frame hset
    rw [hgiven.takes.bits, hset]
    rfl
  have hnot : ¬IsTable vm live (address / 0x1000) := by
    intro htable
    rw [hsubset _ (h.table _ htable).2] at hfresh
    cases hfresh
  have hdir : address / 0x1000 ≠ staticFrame pageDir := by
    intro hframe
    have hlow := htakes.low
    have hbelow := h.directories.layout.frame_lt _
      (h.directories.dirFrame hactive)
    rw [hgiven.takes.min, hframe] at hlow
    omega
  have hne : address / 0x1000 ≠ entry / 0x1000 := by
    intro hsame
    rw [hsame, hgiven.frame, hgiven.takes.owned.set] at hfresh
    cases hfresh
  have hword : next.word = setAt (newTable vm.word (staticFrame pageDir)
      (virtAddr / 0x400000) address flags) (address / 0x1000)
      (virtAddr / 0x1000 % 0x400) entry := by
    rw [hnext]
  have hwords := newTable_words hdir hword
  have hother : next.word (staticFrame pageDir) 1023 =
      vm.word (staticFrame pageDir) 1023 :=
    hwords.others _ hdir.symm 1023 (by omega)
  have hwindow : Window next (staticFrame pageDir) := by
    have hcr3 : next.cr3 / 0x1000 = staticFrame pageDir := by
      rw [hnext]
      rfl
    refine ⟨?_, hself.congr hother⟩
    rw [hcr3]
    exact hself.congr hother
  have hpoints : Points next.word (staticFrame pageDir) (virtAddr / 0x400000)
      (address / 0x1000) := by
    unfold Points
    rw [hwords.directory]
    exact tableEntry_spec address hflags
  have hcr3 : address / 0x1000 ≠ next.cr3 / 0x1000 := by
    rw [hnext]
    exact hdir
  have hframes : next.frames = after := by rw [hnext]
  have howned : Owned next.frames (entry / 0x1000) := by
    rw [hframes, hgiven.frame]
    exact hgiven.takes.owned.take htakes
  have htarget : Owned next.frames (address / 0x1000) := by
    rw [hframes]
    exact htakes.owned
  have hpos : 0 < entry / 0x1000 := by
    rw [hgiven.frame]
    exact hgiven.pos
  have hpde : next.word (staticFrame pageDir) (virtAddr / 0x400000) <
      4294967296 := by
    rw [hwords.directory]
    exact tableEntry_lt (pmmAllocPageFrame_lt halloc) hflags
  refine ⟨_, hwindow.unmap_table hgiven.user hpoints hdir hcr3 hwords.page
    hgiven.present hgiven.bound hpos howned htarget hne hpde ?_, ?_, ?_⟩
  · intro j hj hcell
    rw [hwords.zero j hj hcell]
  · intro page hpage
    change translate (setAt (setAt next.word (address / 0x1000)
      (virtAddr / 0x1000 % 0x400) 0) (staticFrame pageDir)
      (virtAddr / 0x400000) 0) _ _ = _
    have hrow : ∀ x ≠ virtAddr / 0x400000, setAt (setAt next.word
        (address / 0x1000) (virtAddr / 0x1000 % 0x400) 0) (staticFrame pageDir)
        (virtAddr / 0x400000) 0 (staticFrame pageDir) x =
          vm.word (staticFrame pageDir) x := by
      intro x hx
      rw [setAt_of_ne _ _ (.inr hx), setAt_of_ne _ _ (.inl hdir.symm),
        hwords.others _ hdir.symm _ fun hcell => hx hcell.2]
    by_cases hx : page / 1024 = virtAddr / 0x400000
    · rw [← hx] at habsent
      rw [translate_absent habsent, translate_absent]
      rw [hx, setAt_same]
    · by_cases hshown : page = 0xFFC00 + virtAddr / 0x400000
      · refine translate_still_none (hrow _ hx) ?_
        intro target htarget'
        rcases tableAt_cases hself (by omega) htarget' with ⟨-, rfl⟩ | hlow
        · have hentry : page % 1024 = virtAddr / 0x400000 := by omega
          rw [hentry, setAt_same]
          exact ⟨rfl, habsent⟩
        · omega
      · refine translate_keep (hrow _ hx) ?_
        intro target htarget' hsmall
        rcases tableAt_cases hself (by omega) htarget' with ⟨hlast, rfl⟩ | hlow
        · exact hrow _ (by omega)
        · have hold : IsTable vm live target :=
            ⟨pageDir, hactive, _, hlow, htarget', hsmall⟩
          have htable := hold.ne_dir h.directories hactive
          have hnew : target ≠ address / 0x1000 := by
            rintro rfl
            exact hnot hold
          rw [setAt_of_ne _ _ (.inl htable), setAt_of_ne _ _ (.inl hnew),
            hwords.others _ hnew _ fun hcell => htable hcell.1]
  · intro frame
    change (freed (freed next.frames (entry / 0x1000))
      (address / 0x1000)).physicalMemoryBitmap.bit frame = _
    rw [hframes, hgiven.frame, ← hgiven.takes.freed_bits frame, freed_bit,
      freed_bit, freed_bit, htakes.bits]
    by_cases hsame : frame = address / 0x1000
    · rw [hsame, hfresh]
      simp
    · simp [hsame]

/-! ## Calls -/

theorem MapsPage.congr
    {word mid word' : ℕ → ℕ → ℕ} {dir frame : ℕ}
    (h : MapsPage word mid dir virtAddr frame flags)
    (hvirt : virtAddr < 4294967296)
    (hsame : ∀ page < 0x100000,
      translate word' dir page = translate mid dir page) :
    MapsPage word word' dir virtAddr frame flags where
  mapped := by
    rw [hsame _ (by omega)]
    exact h.mapped
  others page hpage hne hshown :=
    (hsame page hpage).trans (h.others page hpage hne hshown)

/-- A frame that has just been given is not used. -/
theorem Apart.unused
    (h : Apart vm live) {phyAddr : ℕ} {frames : Frames}
    (htakes : Takes vm.frames frames phyAddr) :
    Unused { vm with frames := frames } live (phyAddr / 0x1000) where
  range := htakes.owned.low
  allocated := htakes.owned.set
  table := by
    intro htable
    have hclear := htakes.clear
    rw [(h.table _ htable).2] at hclear
    cases hclear
  page := by
    intro hpage
    have hclear := htakes.clear
    rw [(h.page _ hpage).2.1] at hclear
    cases hclear

/-- The round trip in the user half. -/
theorem Apart.restores
    (h : Apart vm live) (hactive : Active vm live pageDir)
    (hself : Points vm.word (staticFrame pageDir) 1023 (staticFrame pageDir))
    {frames : Frames} {phyAddr entry : ℕ}
    (hgiven : Given vm frames virtAddr phyAddr entry)
    (hlarge : NotLarge vm pageDir (virtAddr / 0x400000))
    (hnone : translate vm.word (staticFrame pageDir) (virtAddr / 0x1000) = none)
    (hpages : ∀ x < 768, ∀ table, TableAt vm pageDir x table →
      ∃ j < 1024, vm.word table j % 2 = 1)
    (hfree : HasFree frames)
    (hmaps : MapsIn (memChangePageDir { vm with frames := frames } pageDir)
      (staticFrame pageDir) (virtAddr / 0x400000) (virtAddr / 0x1000 % 0x400)
      (flags &&& 0x3FF) entry next) :
    ∃ last, memUnmapPage virtAddr next = .ok last ∧
      Restores vm last (staticFrame pageDir) := by
  have hindex : virtAddr / 0x1000 / 1024 = virtAddr / 0x400000 := by omega
  cases hmaps with
  | @present target count htable =>
      have hat : TableAt vm pageDir (virtAddr / 0x400000) target :=
        ⟨htable, hlarge htable.1⟩
      refine h.restores_present hactive hself hgiven hat ?_
        (hpages _ hgiven.index target hat) rfl
      rw [← hindex] at hat
      obtain ⟨pde, hwalk⟩ := translate_table hat.1 hat.2 rfl
      rw [hnone] at hwalk
      by_contra hset
      rw [if_neg hset] at hwalk
      cases hwalk
  | @absent address count after habsent halloc =>
      have hmin : 0 < frames.pageFrameMin := by
        rw [hgiven.takes.min]
        exact h.directories.min_pos
      exact h.restores_absent hactive hself hgiven habsent halloc
        (hfree.alloc_ne_zero hmin halloc)
        (Nat.and_lt_two_pow flags (by norm_num : 0x3FF < 2 ^ 10)) rfl

end

/-! ## Runs -/

section

variable {initialPageDir pageDirs kernelEnd memHigh pageDir : ℕ}
  {memory : ℕ → ℕ → ℕ} {vm : Vm} {live : List ℕ} {frames : Frames}
  {virtAddr phyAddr flags : UInt32}

theorem Apart.memMapPage
    (h : Apart vm live) (hactive : Active vm live pageDir)
    (hself : Points vm.word
      (staticFrame (editedFrom vm pageDir virtAddr.toNat)) 1023
      (staticFrame (editedFrom vm pageDir virtAddr.toNat)))
    (hbelow : virtAddr.toNat < 0xFFC00000)
    (hlarge : NotLarge vm (editedFrom vm pageDir virtAddr.toNat)
      (virtAddr.toNat / 0x400000))
    (hflags : PageFlags flags.toNat)
    (htakes : Takes vm.frames frames phyAddr.toNat) (hfree : HasFree frames)
    {next : Vm}
    (hmap : memMapPage virtAddr.toNat phyAddr.toNat flags.toNat
      (memChangePageDir { vm with frames := frames } pageDir) = .ok next)
    (hafter : Apart { vm with frames := frames } live) :
    MapsPage vm.word next.word
      (staticFrame (editedFrom vm pageDir virtAddr.toNat)) virtAddr.toNat
      (phyAddr.toNat / 0x1000) flags.toNat := by
  have hstart : kernelStart = 3221225472 := rfl
  obtain ⟨hentry, hframe, -⟩ :=
    pageEntry_spec phyAddr.toNat_lt htakes.aligned hflags
  rcases Nat.lt_or_ge virtAddr.toNat kernelStart with huser | hkernel
  · rw [editedFrom, if_neg (by omega)] at hself hlarge ⊢
    obtain ⟨owner, howner, hpoints, hmaps⟩ :=
      hafter.directories.map_user hactive huser hmap
    have hsame : staticFrame owner = staticFrame pageDir :=
      hpoints.2.symm.trans hself.2
    rw [hsame] at hmaps
    exact (hafter.change pageDir).mapsPage hactive hself (by omega) hlarge
      (fun _ => hfree) phyAddr.toNat_lt htakes.aligned hflags hmaps
  · rw [editedFrom, if_pos hkernel] at hself hlarge ⊢
    obtain ⟨mapped, hmaps, rfl⟩ :=
      hafter.directories.map_kernel hactive hkernel hbelow hmap
    have hinitial : Active { vm with frames := frames } live vm.initialPageDir :=
      .inl rfl
    have hwalks := (hafter.change vm.initialPageDir).mapsPage hinitial hself
      (by omega) hlarge (fun _ => hfree) phyAddr.toNat_lt htakes.aligned hflags
      hmaps
    have hunused := h.unused htakes
    rw [← hframe] at hunused
    have hmapped := (hafter.change vm.initialPageDir).map hinitial (by omega)
      (fun _ => rfl) hlarge (fun _ => hfree) hflags.spec.2.1 hentry
      (hunused.change _) hmaps
    have hedit := (hafter.directories.change vm.initialPageDir).map_edits
      hinitial (by omega) hmaps
    have hsame : mapped.initialPageDir = vm.initialPageDir :=
      hedit.statics.initialPageDir
    refine hwalks.congr virtAddr.toNat_lt fun page hpage => ?_
    have hleave := hmapped.leave_translate pageDir page hpage
    rw [hsame] at hleave
    exact hleave

/-- A page that is mapped is translated to its frame with its flags, and only
the page of the recursive mapping that shows a page table made for it comes to be
mapped with it.  Unmapping a user page that was not mapped takes both away. -/
theorem memMapPage_walks
    (virtAddr phyAddr flags : UInt32)
    (himage : KernelImage initialPageDir pageDirs kernelEnd)
    (hrun : VmmRun MapsUnused
      (bootState initialPageDir pageDirs kernelEnd memHigh memory) live vm)
    (hactive : Active vm live pageDir)
    (hself : Points vm.word
      (staticFrame (editedFrom vm pageDir virtAddr.toNat)) 1023
      (staticFrame (editedFrom vm pageDir virtAddr.toNat)))
    (hpages : ∀ x < 768, ∀ table,
      TableAt vm (editedFrom vm pageDir virtAddr.toNat) x table →
        ∃ j < 1024, vm.word table j % 2 = 1)
    (hindex : virtAddr.toNat / 0x400000 ≠ 1023)
    (hlarge : NotLarge vm (editedFrom vm pageDir virtAddr.toNat)
      (virtAddr.toNat / 0x400000))
    (halloc : pmmAllocPageFrame vm.frames = .ok (phyAddr.toNat, frames))
    (hzero : phyAddr.toNat ≠ 0) (hflags : PageFlags flags.toNat)
    (hfree : HasFree frames) :
    ∃ next, memMapPage virtAddr.toNat phyAddr.toNat flags.toNat
        (memChangePageDir { vm with frames := frames } pageDir) = .ok next ∧
      MapsPage vm.word next.word
        (staticFrame (editedFrom vm pageDir virtAddr.toNat)) virtAddr.toNat
        (phyAddr.toNat / 0x1000) flags.toNat ∧
      (virtAddr.toNat < kernelStart →
        translate vm.word (staticFrame (editedFrom vm pageDir virtAddr.toNat))
          (virtAddr.toNat / 0x1000) = none →
        ∃ last, memUnmapPage virtAddr.toNat next = .ok last ∧
          Restores vm last
            (staticFrame (editedFrom vm pageDir virtAddr.toNat))) := by
  have hvirt := virtAddr.toNat_lt
  have hstart : kernelStart = 3221225472 := rfl
  have h := VmmRun.apart himage hrun
  have hafter := h.alloc halloc
  have htakes := pmmAllocPageFrame_takes halloc hzero
  obtain ⟨table, taken, htable⟩ := hfree.alloc
  obtain ⟨next, hmap⟩ := hafter.directories.map_ok hactive
    (by omega : virtAddr.toNat < 0xFFC00000) htable phyAddr.toNat flags.toNat
  refine ⟨next, hmap, h.memMapPage hactive hself (by omega) hlarge hflags
    htakes hfree hmap hafter, fun huser hnone => ?_⟩
  rw [editedFrom, if_neg (by omega)] at *
  obtain ⟨owner, howner, hpoints, hmaps⟩ :=
    hafter.directories.map_user hactive huser hmap
  have hsame : staticFrame owner = staticFrame pageDir :=
    hpoints.2.symm.trans hself.2
  rw [hsame] at hmaps
  obtain ⟨hentry, hframe, hlow⟩ :=
    pageEntry_spec phyAddr.toNat_lt htakes.aligned hflags
  have hpresent := hflags.spec.2.2.1
  have hpos : 0 < phyAddr.toNat / 0x1000 :=
    lt_of_lt_of_le h.directories.min_pos htakes.low
  exact h.restores hactive hself ⟨huser, htakes, hpos, by omega, hentry, hframe⟩
    hlarge hnone hpages hfree hmaps

end

theorem firstDirectory_user
    {x : ℕ} (hx : x < 768) :
    (addPageDir sampleBoot 1).word (staticFrame 0xC0201000) x = 0 := by
  have hrow := addPageDir_row (i := 1) sampleBoot_layout (by decide) x
  rw [if_neg (by omega), if_neg (by omega)] at hrow
  exact hrow

theorem firstDirectory_entry :
    (addPageDir sampleBoot 1).word (staticFrame 0xC0201000) 1023 =
      selfEntry 0xC0201000 := by
  have hrow := addPageDir_row (i := 1) sampleBoot_layout (by decide) 1023
  rw [if_pos rfl] at hrow
  exact hrow

theorem firstDirectory_self :
    Points (addPageDir sampleBoot 1).word (staticFrame 0xC0201000) 1023
      (staticFrame 0xC0201000) := by
  unfold Points
  rw [firstDirectory_entry]
  exact selfEntry_points

theorem firstDirectory_alloc :
    ∃ frames, pmmAllocPageFrame (addPageDir sampleBoot 1).frames =
      .ok (0x301000, frames) ∧ HasFree frames := by
  have htest : (pmmAllocPageFrame (addPageDir sampleBoot 1).frames).satisfies
      (fun taken => decide (taken.1 = 0x301000 ∧
        taken.2.pageFrameMin ≤ 0x400 ∧ 0x400 < taken.2.pageFrameMax ∧
        taken.2.physicalMemoryBitmap.bit 0x400 = false)) = true := by
    decide +kernel
  obtain ⟨⟨address, frames⟩, halloc, hspec⟩ :=
    Outcome.exists_of_satisfies htest
  simp only [decide_eq_true_eq] at hspec
  obtain ⟨rfl, hlow, hhigh, hclear⟩ := hspec
  exact ⟨frames, halloc, 0x400, hlow, hhigh, by decide, hclear⟩

/-- The first page of the first directory. -/
theorem memMapPage_walks_firstDirectory :
    ∃ frames next last, memMapPage 0x400000 0x301000 7 (memChangePageDir
        { addPageDir sampleBoot 1 with frames := frames } 0xC0201000) =
          .ok next ∧
      MapsPage (addPageDir sampleBoot 1).word next.word (staticFrame 0xC0201000)
        0x400000 0x301 7 ∧
      memUnmapPage 0x400000 next = .ok last ∧
      Restores (addPageDir sampleBoot 1) last (staticFrame 0xC0201000) := by
  obtain ⟨frames, halloc, hfree⟩ := firstDirectory_alloc
  have hnone : ∀ x < 768, (addPageDir sampleBoot 1).word
      (staticFrame 0xC0201000) x % 2 = 0 := by
    intro x hx
    rw [firstDirectory_user hx]
  have hempty : ∀ x < 768, ∀ table, ¬TableAt (addPageDir sampleBoot 1)
      0xC0201000 x table := by
    intro x hx table htable
    have hpresent := htable.1.1
    rw [hnone x hx] at hpresent
    cases hpresent
  obtain ⟨next, hmap, hwalks, hround⟩ := memMapPage_walks 0x400000 0x301000 7
    kernelImage_sample (sampleBoot_newPageDir MapsUnused trivial)
    (.inr (List.mem_singleton.2 rfl) : Active (addPageDir sampleBoot 1)
      [0xC0201000] 0xC0201000)
    firstDirectory_self (fun x hx table htable => absurd htable
      (hempty x hx table)) (by decide)
    (fun hpresent => absurd hpresent (by
      have hzero := hnone 1 (by norm_num)
      change ¬(addPageDir sampleBoot 1).word (staticFrame 0xC0201000) 1 % 2 = 1
      omega)) halloc (by decide)
    ⟨pageFlagWrite ||| pageFlagUser, by simp, .inl rfl⟩ hfree
  obtain ⟨last, hunmap, hrestores⟩ := hround (by decide)
    (translate_absent (hnone 1 (by norm_num)))
  exact ⟨frames, next, last, hmap, hwalks, hunmap, hrestores⟩

theorem MapsIn.directory
    {vm next : Vm} {dir pdIndex ptIndex flags entry : ℕ}
    (h : MapsIn vm dir pdIndex ptIndex flags entry next)
    (htable : ∀ target, Points vm.word dir pdIndex target → dir ≠ target)
    (hnew : ∀ address after,
      pmmAllocPageFrame vm.frames = .ok (address, after) →
        dir ≠ address / 0x1000) :
    (vm.word dir pdIndex % 2 = 1 ∧ next.frames = vm.frames ∧
        ∀ x, next.word dir x = vm.word dir x) ∨
      (vm.word dir pdIndex % 2 = 0 ∧ ∃ address,
        pmmAllocPageFrame vm.frames = .ok (address, next.frames) ∧
          next.word dir pdIndex = tableEntry address flags ∧
          ∀ x ≠ pdIndex, next.word dir x = vm.word dir x) := by
  cases h with
  | present hpoints =>
      exact .inl ⟨hpoints.1, rfl, fun x =>
        setAt_of_ne _ _ (.inl (htable _ hpoints))⟩
  | @absent address count frames habsent halloc =>
      have hframe := hnew _ _ halloc
      have hrow : ∀ x, setAt (newTable vm.word dir pdIndex address flags)
          (address / 0x1000) ptIndex entry dir x =
            setAt vm.word dir pdIndex (tableEntry address flags) dir x := by
        intro x
        rw [setAt_of_ne _ _ (.inl hframe), newTable,
          clearTable_of_ne _ _ hframe]
      refine .inr ⟨habsent, address, halloc, ?_, fun x hx => ?_⟩
      · exact (hrow pdIndex).trans (setAt_same _ _ _ _)
      · exact (hrow x).trans (setAt_of_ne _ _ (.inr hx))

/-- The page of the recursive mapping that shows a page table appears with it. -/
theorem translate_shown
    {word word' : ℕ → ℕ → ℕ} {dir x table : ℕ} (hx : x < 1023)
    (hself : Points word dir 1023 dir)
    (hsmall : (word dir 1023).testBit 7 = false)
    (hsame : word' dir 1023 = word dir 1023) (habsent : word dir x % 2 = 0)
    (hpresent : Points word' dir x table) :
    translate word' dir (0xFFC00 + x) ≠ translate word dir (0xFFC00 + x) := by
  have hrow : (0xFFC00 + x) / 1024 = 1023 := by omega
  have hentry : (0xFFC00 + x) % 1024 = x := by omega
  have hself' := hself.congr hsame
  have hsmall' := hsmall
  rw [← hsame] at hsmall'
  rw [← hrow] at hself hself' hsmall hsmall'
  obtain ⟨pde, hbefore⟩ := translate_table hself hsmall rfl
  obtain ⟨pde', hafter⟩ := translate_table hself' hsmall' rfl
  have hset := hpresent.1
  rw [hbefore, hafter, hentry, if_pos habsent, if_neg (by omega)]
  simp

theorem MapsIn.makes
    {vm next : Vm} {dir pdIndex ptIndex flags entry : ℕ}
    (h : MapsIn vm dir pdIndex ptIndex flags entry next)
    (habsent : vm.word dir pdIndex % 2 = 0) (hflags : flags < 0x400)
    (hfresh : ∀ address frames,
      pmmAllocPageFrame vm.frames = .ok (address, frames) →
        address / 0x1000 ≠ dir) :
    ∃ table, Points next.word dir pdIndex table := by
  cases h with
  | present htable =>
      have hpresent := htable.1
      omega
  | @absent address count frames _ halloc =>
      have hdir := hfresh address frames halloc
      exact ⟨_, (newTable_points vm.word pdIndex hflags hdir).congr
        (setAt_of_ne _ _ (.inl hdir.symm))⟩

/-- The first page of the first directory brings its page table into view. -/
theorem memMapPage_firstDirectory_shown :
    ∃ frames next, VmmRun MapsUnused sampleBoot [0xC0201000]
        (addPageDir sampleBoot 1) ∧
      Points (addPageDir sampleBoot 1).word (staticFrame 0xC0201000) 1023
        (staticFrame 0xC0201000) ∧
      (∀ x < 768, ∀ table, ¬TableAt (addPageDir sampleBoot 1) 0xC0201000 x
        table) ∧
      pmmAllocPageFrame (addPageDir sampleBoot 1).frames =
        .ok (0x301000, frames) ∧ HasFree frames ∧
      memMapPage 0x400000 0x301000 7 (memChangePageDir
        { addPageDir sampleBoot 1 with frames := frames } 0xC0201000) =
          .ok next ∧
      translate next.word (staticFrame 0xC0201000) 0xFFC01 ≠
        translate (addPageDir sampleBoot 1).word (staticFrame 0xC0201000)
          0xFFC01 := by
  obtain ⟨frames, halloc, hfree⟩ := firstDirectory_alloc
  have hrun := sampleBoot_newPageDir MapsUnused trivial
  have hactive : Active { addPageDir sampleBoot 1 with frames := frames }
      [0xC0201000] 0xC0201000 := .inr (List.mem_singleton.2 rfl)
  have hafter := ((VmmRun.apart kernelImage_sample hrun).alloc halloc).directories
  obtain ⟨table, taken, htable⟩ := hfree.alloc
  obtain ⟨next, hmap⟩ := hafter.map_ok hactive
    (by norm_num : 0x400000 < 0xFFC00000) htable 0x301000 7
  have habsent := firstDirectory_user (by norm_num : 1 < 768)
  refine ⟨frames, next, hrun, firstDirectory_self, ?_, halloc, hfree, hmap, ?_⟩
  · intro x hx table htable
    have hpresent := htable.1.1
    rw [firstDirectory_user hx] at hpresent
    cases hpresent
  obtain ⟨owner, howner, hpoints, hmaps⟩ :=
    hafter.map_user hactive (by decide) hmap
  have hsame : staticFrame owner = staticFrame 0xC0201000 :=
    hpoints.2.symm.trans firstDirectory_self.2
  rw [hsame] at hmaps
  have hsmall : ((addPageDir sampleBoot 1).word (staticFrame 0xC0201000)
      1023).testBit 7 = false := by
    rw [firstDirectory_entry]
    decide +kernel
  rw [← hsame] at habsent
  obtain ⟨table, htable⟩ := hmaps.makes (by
    change (addPageDir sampleBoot 1).word (staticFrame 0xC0201000) 1 % 2 = 0
    rw [← hsame, habsent]) (by decide)
    fun address frames halloc => hafter.fresh hactive halloc
  have hedit := (hafter.change 0xC0201000).map_edits hactive (by decide) hmaps
  refine translate_shown (by norm_num : 1 < 1023) firstDirectory_self hsmall
    (hedit.rows _ (hafter.dirFrame hactive) 1023 (by norm_num)) ?_ htable
  rw [← hsame, habsent]

end ClOs.Memory
