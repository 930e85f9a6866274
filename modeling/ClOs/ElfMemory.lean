import ClOs.ElfReplay

/-!
# The memory of a process that is being loaded

While enough frames are free, the user half of the directory that is loaded shows
the cells of the script.  A byte that has been mapped and not been written is what
the frame held before the load.
-/

namespace ClOs

namespace Memory

/-! ## Bytes -/

theorem Vm.byte_setByte_same
    (vm : Vm) (frame offset : ℕ) {value : ℕ} (hvalue : value < 256) :
    (vm.setByte frame offset value).byte frame offset = value := by
  unfold Vm.byte Vm.setByte
  simp only [Vm.setWord_eq, Vm.withWord_word, setAt_same]
  generalize vm.word frame (offset / 4) = word
  have hlane : offset % 4 < 4 := Nat.mod_lt _ (by norm_num)
  interval_cases offset % 4 <;> omega

theorem Vm.byte_setByte_of_ne
    (vm : Vm) {frame offset other position value : ℕ} (hvalue : value < 256)
    (hne : other ≠ frame ∨ position ≠ offset) :
    (vm.setByte frame offset value).byte other position =
      vm.byte other position := by
  unfold Vm.byte Vm.setByte
  simp only [Vm.setWord_eq, Vm.withWord_word]
  by_cases hcell : other = frame ∧ position / 4 = offset / 4
  · obtain ⟨rfl, hword⟩ := hcell
    rw [hword, setAt_same]
    generalize vm.word other (offset / 4) = word
    have hlane : offset % 4 < 4 := Nat.mod_lt _ (by norm_num)
    have hlane' : position % 4 < 4 := Nat.mod_lt _ (by norm_num)
    have hlanes : position % 4 ≠ offset % 4 := by omega
    interval_cases offset % 4 <;> interval_cases position % 4 <;> omega
  · rw [setAt_of_ne _ _ (by omega)]

theorem Vm.setByte_word
    (vm : Vm) {frame other : ℕ} (offset value : ℕ) (hne : other ≠ frame) :
    (vm.setByte frame offset value).word other = vm.word other := by
  funext j
  unfold Vm.setByte
  simp only [Vm.setWord_eq, Vm.withWord_word]
  exact setAt_of_ne _ _ (.inl hne)

/-! ## Free frames -/

/-- The frames that `pmm_alloc_page_frame` can give. -/
def Frames.free (frames : Frames) : Finset ℕ :=
  (Finset.range numPageFrames).filter fun frame =>
    frames.pageFrameMin ≤ frame ∧ frame < frames.pageFrameMax ∧
      frames.physicalMemoryBitmap.bit frame = false

theorem Frames.mem_free
    {frames : Frames} {frame : ℕ} :
    frame ∈ frames.free ↔ frame < numPageFrames ∧
      frames.pageFrameMin ≤ frame ∧ frame < frames.pageFrameMax ∧
        frames.physicalMemoryBitmap.bit frame = false := by
  simp [Frames.free]

theorem Frames.hasFree
    {frames : Frames} (h : 0 < frames.free.card) : HasFree frames := by
  obtain ⟨frame, hframe⟩ := Finset.card_pos.1 h
  obtain ⟨hbound, hlow, hhigh, hclear⟩ := Frames.mem_free.1 hframe
  exact ⟨frame, hlow, hhigh, hbound, hclear⟩

theorem Takes.mem_free
    {frames next : Frames} {address : ℕ} (h : Takes frames next address) :
    address / 0x1000 ∈ frames.free :=
  Frames.mem_free.2 ⟨h.bound, h.low, h.high, h.clear⟩

theorem Takes.free
    {frames next : Frames} {address : ℕ} (h : Takes frames next address) :
    next.free = frames.free.erase (address / 0x1000) := by
  ext frame
  rw [Finset.mem_erase, Frames.mem_free, Frames.mem_free, h.min, h.max, h.bits]
  by_cases hsame : frame = address / 0x1000
  · simp [hsame]
  · simp [hsame]

theorem Takes.card_free
    {frames next : Frames} {address : ℕ} (h : Takes frames next address) :
    next.free.card + 1 = frames.free.card := by
  rw [h.free]
  exact Finset.card_erase_add_one h.mem_free

/-! ## Walks -/

/-- The walk of a page of a directory without pages of 4 MiB. -/
theorem translate_some
    {word : ℕ → ℕ → ℕ} {dir page frame pde pte : ℕ}
    (hsmall : (word dir (page / 1024)).testBit 7 = false)
    (h : translate word dir page = some (frame, pde, pte)) :
    ∃ table, Points word dir (page / 1024) table ∧
      Points word table (page % 1024) frame ∧
      pde = word dir (page / 1024) % 0x1000 ∧
      pte = word table (page % 1024) % 0x1000 := by
  unfold Memory.translate at h
  simp only [hsmall] at h
  split_ifs at h with habsent hfalse hnone
  · cases hfalse
  · simp only [Option.some.injEq, Prod.mk.injEq] at h
    obtain ⟨hframe, hpde, hpte⟩ := h
    exact ⟨_, ⟨by omega, rfl⟩, ⟨by omega, hframe⟩, hpde.symm, hpte.symm⟩

theorem memMapPage_table
    {vm : Vm} {dir virtAddr target : ℕ} (h : Window vm dir)
    (huser : virtAddr < kernelStart)
    (htable : Points vm.word dir (virtAddr / 0x400000) target)
    (phyAddr flags : ℕ) :
    ∃ next, memMapPage virtAddr phyAddr flags vm = .ok next := by
  unfold memMapPage
  rw [enterKernelHalf_user vm huser]
  simp only [h.ensurePageTable_present htable.1, bind, Except.bind,
    h.writeTable htable]
  exact ⟨_, rfl⟩

/-- The words that mapping a page leaves alone. -/
theorem MapsIn.word_other
    {vm next : Vm} {dir pdIndex ptIndex flags entry frame : ℕ}
    (h : MapsIn vm dir pdIndex ptIndex flags entry next) (hdir : frame ≠ dir)
    (htable : ∀ target, Points vm.word dir pdIndex target → frame ≠ target)
    (hnew : vm.word dir pdIndex % 2 = 0 → ∀ address after,
      pmmAllocPageFrame vm.frames = .ok (address, after) →
        frame ≠ address / 0x1000) : next.word frame = vm.word frame := by
  funext j
  cases h with
  | present hpoints => exact setAt_of_ne _ _ (.inl (htable _ hpoints))
  | absent habsent halloc =>
      have hframe := hnew habsent _ _ halloc
      refine (setAt_of_ne _ _ (.inl hframe)).trans ?_
      rw [newTable, clearTable_of_ne _ _ hframe, setAt_of_ne _ _ (.inl hdir)]

theorem Apart.setByte
    {vm : Vm} {live : List ℕ} {frame : ℕ} (h : Apart vm live)
    (hreferenced : Referenced vm live frame) (offset value : ℕ) :
    Apart (vm.setByte frame offset value) live ∧
      (∀ pageDir, Active vm live pageDir →
        (vm.setByte frame offset value).word (staticFrame pageDir) =
          vm.word (staticFrame pageDir)) ∧
      ∀ table, IsTable vm live table →
        (vm.setByte frame offset value).word table = vm.word table := by
  obtain ⟨hrange, -, hnot⟩ := h.page frame hreferenced
  have hdirs := h.directories
  have hrow : ∀ P, Active vm live P →
      (vm.setByte frame offset value).word (staticFrame P) =
        vm.word (staticFrame P) := by
    intro P hP
    refine vm.setByte_word _ _ ?_
    have hlt := hdirs.layout.frame_lt _ (hdirs.dirFrame hP)
    omega
  have htable : ∀ t, IsTable vm live t →
      (vm.setByte frame offset value).word t = vm.word t := by
    intro t ht
    refine vm.setByte_word _ _ ?_
    rintro rfl
    exact hnot ht
  have hstatics : SameStatics vm (vm.setByte frame offset value) :=
    ⟨rfl, rfl, rfl⟩
  refine ⟨?_, hrow, htable⟩
  exact h.copies
    (hdirs.congr hstatics (fun _ hused => hused) fun P hP x => by
      rw [hrow P hP]) hstatics rfl
    (fun x _ => by rw [hrow _ (.inl rfl)])
    (fun P hP x _ t hat => .inl ⟨hP, hat.congr (by rw [hrow P hP])⟩)
    (fun t ht j => by rw [htable t ht])

end Memory

namespace Elf

open Memory Stopping

def Shows (start vm : Vm) (dir a : ℕ) : Cell → Prop
  | .unmapped => translate vm.word dir (a / 0x1000) = none
  | .fresh => ∃ frame ∈ start.frames.free,
      translate vm.word dir (a / 0x1000) = some (frame, 7, 7) ∧
        vm.byte frame (a % 0x1000) = start.byte frame (a % 0x1000)
  | .written value => ∃ frame,
      translate vm.word dir (a / 0x1000) = some (frame, 7, 7) ∧
        vm.byte frame (a % 0x1000) = value

/-- A load into a directory of its own, with the directory entries that have page
tables. -/
structure Loading (start : Vm) (live : List ℕ) (pageDir : ℕ) (cells : ℕ → Cell)
    (tables : Finset ℕ) (vm : Vm) : Prop where
  apart : Memory.Apart vm live
  active : Active vm live pageDir
  cr3 : vm.cr3 = sub32 pageDir kernelStart
  self : Points vm.word (staticFrame pageDir) 1023 (staticFrame pageDir)
  user : ∀ x < 768, vm.word (staticFrame pageDir) x % 2 = 1 →
    vm.word (staticFrame pageDir) x % 0x1000 = 7
  tables : ∀ x < 768, x ∈ tables ↔ vm.word (staticFrame pageDir) x % 2 = 1
  free : ∀ frame ∈ vm.frames.free,
    frame ∈ start.frames.free ∧ vm.word frame = start.word frame
  cells : ∀ a < kernelStart, Shows start vm (staticFrame pageDir) a (cells a)

section

variable {start vm next : Vm} {live : List ℕ} {pageDir : ℕ} {cells : ℕ → Cell}
  {tables : Finset ℕ}

theorem small_of_flags
    {entry : ℕ} (hflags : entry % 0x1000 = 7) : entry.testBit 7 = false := by
  have hbit := Nat.testBit_mod_two_pow entry 12 7
  rw [show 2 ^ 12 = 0x1000 from rfl, hflags] at hbit
  have hseven : Nat.testBit 7 7 = false := by decide
  rw [hseven] at hbit
  simpa using hbit.symm

theorem Loading.small
    (h : Loading start live pageDir cells tables vm) {x : ℕ} (hx : x < 768)
    (hpresent : vm.word (staticFrame pageDir) x % 2 = 1) :
    (vm.word (staticFrame pageDir) x).testBit 7 = false :=
  small_of_flags (h.user x hx hpresent)

theorem memChangePageDir_self
    (hcr3 : vm.cr3 = sub32 pageDir kernelStart) :
    memChangePageDir vm pageDir = vm := by
  unfold memChangePageDir
  rw [← hcr3]

theorem Loading.window
    (h : Loading start live pageDir cells tables vm) :
    Window vm (staticFrame pageDir) := by
  have hcr3 : vm.cr3 / 0x1000 = staticFrame pageDir := by
    rw [h.cr3]
    rfl
  refine ⟨?_, h.self⟩
  rw [hcr3]
  exact h.self

/-- What a page of the user half that is mapped is mapped to. -/
theorem Loading.page
    (h : Loading start live pageDir cells tables vm) {page frame : ℕ}
    {flags : ℕ × ℕ} (hpage : page < 768 * 1024)
    (hwalk : translate vm.word (staticFrame pageDir) page = some (frame, flags)) :
    ∃ table, TableAt vm pageDir (page / 1024) table ∧
      IsTable vm live table ∧ Points vm.word table (page % 1024) frame ∧
      Referenced vm live frame := by
  have hindex : page / 1024 < 768 := by omega
  have hpresent : vm.word (staticFrame pageDir) (page / 1024) % 2 = 1 := by
    by_contra habsent
    rw [translate_absent (by omega)] at hwalk
    cases hwalk
  have hsmall := h.small hindex hpresent
  obtain ⟨table, htable, hpoints, -, -⟩ := translate_some hsmall hwalk
  have hat : TableAt vm pageDir (page / 1024) table := ⟨htable, hsmall⟩
  have his : IsTable vm live table :=
    ⟨pageDir, h.active, _, by omega, hat⟩
  exact ⟨table, hat, his, hpoints, table, his, _, by omega, hpoints⟩

/-- No frame that is free or has just been given is one of the directory or of
its page tables. -/
theorem Loading.table_ne
    (h : Loading start live pageDir cells tables vm) {x target : ℕ}
    (hx : x < 768)
    (htable : Points vm.word (staticFrame pageDir) x target) :
    IsTable vm live target :=
  ⟨pageDir, h.active, x, by omega, htable, h.small hx htable.1⟩

/-! ## A page -/

structure Maps (start vm next : Vm) (live : List ℕ) (pageDir virtAddr : ℕ)
    (frame : ℕ) : Prop where
  walk : translate next.word (staticFrame pageDir) (virtAddr / 0x1000) =
    some (frame, 7, 7)
  walks : ∀ page < 768 * 1024, page ≠ virtAddr / 0x1000 →
    translate next.word (staticFrame pageDir) page =
      translate vm.word (staticFrame pageDir) page
  given : frame ∈ vm.frames.free ∧ next.word frame = vm.word frame
  pages : ∀ other, Referenced vm live other → next.word other = vm.word other

theorem Loading.shows_map
    (h : Loading start live pageDir cells tables vm) {virtAddr frame : ℕ}
    (hmaps : Maps start vm next live pageDir virtAddr frame) {a : ℕ}
    (ha : a < kernelStart) :
    Shows start next (staticFrame pageDir) a
      (Cell.step cells (.map virtAddr) a) := by
  have hstart : kernelStart = 3221225472 := rfl
  rw [Cell.step_map]
  by_cases hpage : a / 0x1000 = virtAddr / 0x1000
  · rw [if_pos hpage]
    obtain ⟨hgiven, hword⟩ := hmaps.given
    obtain ⟨hfree, hsame⟩ := h.free _ hgiven
    refine ⟨frame, hfree, ?_, ?_⟩
    · rw [hpage, hmaps.walk]
    · unfold Vm.byte
      rw [hword, hsame]
  · rw [if_neg hpage]
    have hwalk := hmaps.walks (a / 0x1000) (by omega) hpage
    have hold := h.cells a ha
    cases hcell : cells a with
    | unmapped =>
        rw [hcell] at hold
        exact hwalk.trans hold
    | fresh =>
        rw [hcell] at hold
        obtain ⟨other, hfree, hother, hbyte⟩ := hold
        obtain ⟨-, -, -, -, hreferenced⟩ := h.page (by omega) hother
        refine ⟨other, hfree, hwalk.trans hother, ?_⟩
        rw [← hbyte]
        unfold Vm.byte
        rw [hmaps.pages other hreferenced]
    | written value =>
        rw [hcell] at hold
        obtain ⟨other, hother, hbyte⟩ := hold
        obtain ⟨-, -, -, -, hreferenced⟩ := h.page (by omega) hother
        refine ⟨other, hwalk.trans hother, ?_⟩
        rw [← hbyte]
        unfold Vm.byte
        rw [hmaps.pages other hreferenced]

theorem tableEntry_user
    {address : ℕ} (haligned : address % 0x1000 = 0) :
    tableEntry address (pageFlags &&& 0x3FF) % 0x1000 = 7 := by
  have hflags : pageFlags &&& 0x3FF = 7 := by decide
  have hsplit : address = 2 ^ 12 * (address / 0x1000) := by omega
  have hseven : 7 ||| pageFlagPresent ||| pageFlagWrite = 7 := by decide
  unfold tableEntry
  rw [hflags, Nat.or_assoc, Nat.or_assoc, ← Nat.or_assoc 7, hseven, hsplit,
    ← Nat.two_pow_add_eq_or_of_lt (by norm_num)]
  omega

theorem Loading.frame_ne
    (h : Loading start live pageDir cells tables vm) {frame : ℕ}
    (hrange : vm.frames.pageFrameMin ≤ frame) :
    frame ≠ staticFrame pageDir := by
  have hlt := h.apart.directories.layout.frame_lt _
    (h.apart.directories.dirFrame h.active)
  omega

theorem Loading.clear_ne
    (h : Loading start live pageDir cells tables vm) {x target frame : ℕ}
    (hx : x < 768) (htable : Points vm.word (staticFrame pageDir) x target)
    (hclear : vm.frames.physicalMemoryBitmap.bit frame = false) :
    frame ≠ target := by
  rintro rfl
  rw [(h.apart.table _ (h.table_ne hx htable)).2] at hclear
  cases hclear

/-- The words of the frames that a page does not need. -/
theorem Loading.maps
    (h : Loading start live pageDir cells tables vm) {virtAddr phyAddr : ℕ}
    {frames : Frames} {entry : ℕ} (huser : virtAddr < kernelStart)
    (htakes : Takes vm.frames frames phyAddr)
    (hafter : Memory.Apart { vm with frames := frames } live)
    (hneed : vm.word (staticFrame pageDir) (virtAddr / 0x400000) % 2 = 0 →
      HasFree frames)
    (hwalks : MapsPage vm.word next.word (staticFrame pageDir) virtAddr
      (phyAddr / 0x1000) pageFlags)
    (hflags : ∀ x < 768, next.word (staticFrame pageDir) x % 2 = 1 →
      next.word (staticFrame pageDir) x % 0x1000 = 7)
    (hmaps : MapsIn { vm with frames := frames } (staticFrame pageDir)
      (virtAddr / 0x400000) (virtAddr / 0x1000 % 0x400) (pageFlags &&& 0x3FF)
      entry next) :
    Maps start vm next live pageDir virtAddr (phyAddr / 0x1000) ∧
      ∀ frame ∈ next.frames.free,
        frame ∈ vm.frames.free ∧ next.word frame = vm.word frame := by
  have hstart : kernelStart = 3221225472 := rfl
  have hpd : virtAddr / 0x400000 < 768 := by omega
  have hzero : 0 < frames.pageFrameMin := by
    rw [htakes.min]
    exact h.apart.directories.min_pos
  have htable : ∀ {address after}, HasFree frames →
      pmmAllocPageFrame frames = .ok (address, after) →
        Takes frames after address := fun hfree halloc =>
    pmmAllocPageFrame_takes halloc (hfree.alloc_ne_zero hzero halloc)
  have hset : ∀ {frame}, frames.physicalMemoryBitmap.bit frame = true →
      vm.word (staticFrame pageDir) (virtAddr / 0x400000) % 2 = 0 →
      ∀ address after, pmmAllocPageFrame frames = .ok (address, after) →
        frame ≠ address / 0x1000 := by
    rintro frame hbit habsent address after halloc rfl
    rw [(htable (hneed habsent) halloc).clear] at hbit
    cases hbit
  have hdir : ∀ target, Points vm.word (staticFrame pageDir)
      (virtAddr / 0x400000) target → staticFrame pageDir ≠ target :=
    fun target hpoints => ((h.table_ne hpd hpoints).ne_dir h.apart.directories
      h.active).symm
  have hfresh : ∀ address after, pmmAllocPageFrame frames =
      .ok (address, after) → staticFrame pageDir ≠ address / 0x1000 :=
    fun address after halloc => (hafter.directories.fresh h.active halloc).symm
  refine ⟨{ walk := ?_, walks := ?_, given := ⟨htakes.mem_free, ?_⟩, pages := ?_ },
    fun frame hfree => ?_⟩
  · obtain ⟨pde, hwalk⟩ := hwalks.mapped
    have hpresent : next.word (staticFrame pageDir) (virtAddr / 0x1000 / 1024) %
        2 = 1 := by
      by_contra habsent
      rw [translate_absent (by omega)] at hwalk
      cases hwalk
    have hentry := hflags _ (by omega) hpresent
    obtain ⟨table, -, -, hpde, -⟩ :=
      translate_some (small_of_flags hentry) hwalk
    rw [hwalk, hpde, hentry]
    rfl
  · exact fun page hpage hne => hwalks.others page (by omega) hne
      fun hshown => by omega
  · refine hmaps.word_other (h.frame_ne htakes.low)
      (fun target hpoints => h.clear_ne hpd hpoints htakes.clear) ?_
    exact hset htakes.owned.set
  · intro other hreferenced
    obtain ⟨hrange, hbit, hnot⟩ := h.apart.page other hreferenced
    refine hmaps.word_other (h.frame_ne hrange) ?_ (hset ?_)
    · rintro target hpoints rfl
      exact hnot (h.table_ne hpd hpoints)
    · rw [htakes.bits, hbit]
      rfl
  · have hfree' : frame ∈ vm.frames.free ∧
        (vm.word (staticFrame pageDir) (virtAddr / 0x400000) % 2 = 0 →
          ∀ address after, pmmAllocPageFrame frames = .ok (address, after) →
            frame ≠ address / 0x1000) := by
      rcases hmaps.directory hdir hfresh with
        ⟨hpresent, hframes, -⟩ | ⟨habsent, address, halloc, -, -⟩
      · rw [hframes, htakes.free] at hfree
        exact ⟨(Finset.mem_erase.1 hfree).2, fun habsent => by
          have hpresent : vm.word _ _ % 2 = 1 := hpresent
          omega⟩
      · have htaken := htable (hneed habsent) halloc
        rw [htaken.free, htakes.free] at hfree
        obtain ⟨hne, hfree⟩ := Finset.mem_erase.1 hfree
        refine ⟨(Finset.mem_erase.1 hfree).2, fun _ other after hother => ?_⟩
        have hsame : (address, next.frames) = (other, after) :=
          Except.ok.inj (halloc.symm.trans hother)
        have haddress : address = other := congrArg Prod.fst hsame
        rwa [← haddress]
    obtain ⟨hold, hnew⟩ := hfree'
    obtain ⟨-, hlow, -, hclear⟩ := Frames.mem_free.1 hold
    exact ⟨hold, hmaps.word_other (h.frame_ne hlow)
      (fun target hpoints => h.clear_ne hpd hpoints hclear) hnew⟩

theorem Loading.mapped
    (h : Loading start live pageDir cells tables vm) {virtAddr phyAddr : ℕ}
    {frames : Frames} (huser : virtAddr < kernelStart)
    (htakes : Takes vm.frames frames phyAddr) (hphy : phyAddr < 4294967296)
    (halloc : pmmAllocPageFrame vm.frames = .ok (phyAddr, frames))
    (hneed : vm.word (staticFrame pageDir) (virtAddr / 0x400000) % 2 = 0 →
      HasFree frames)
    (hmaps : MapsIn { vm with frames := frames } (staticFrame pageDir)
      (virtAddr / 0x400000) (virtAddr / 0x1000 % 0x400) (pageFlags &&& 0x3FF)
      ((phyAddr &&& pageFlagFrame) ||| (pageFlags &&& 0x3FF)) next) :
    Loading start live pageDir (Cell.step cells (.map virtAddr))
        (insert (virtAddr / 0x400000) tables) next ∧
      next.frames.free.card + (if virtAddr / 0x400000 ∈ tables then 0 else 1) =
        frames.free.card := by
  have hstart : kernelStart = 3221225472 := rfl
  have hpd : virtAddr / 0x400000 < 768 := by omega
  have hafter := h.apart.alloc halloc
  have hactive : Active { vm with frames := frames } live pageDir := h.active
  have hflags : PageFlags pageFlags :=
    ⟨pageFlagWrite ||| pageFlagUser, by simp, .inl rfl⟩
  have hlarge : NotLarge { vm with frames := frames } pageDir
      (virtAddr / 0x400000) := fun hpresent => h.small hpd hpresent
  obtain ⟨hentry, hframe, -⟩ := pageEntry_spec hphy htakes.aligned hflags
  have hunused := h.apart.unused htakes
  rw [← hframe] at hunused
  have hwalks := hafter.mapsPage hactive h.self (by omega) hlarge hneed hphy
    htakes.aligned hflags hmaps
  have hnext := hafter.map hactive (by omega) (fun hkernel => by omega) hlarge
    hneed hflags.spec.2.1 hentry hunused hmaps
  have hedit := hafter.directories.map_edits hactive (by omega) hmaps
  have hrow : ∀ x ≠ virtAddr / 0x400000, next.word (staticFrame pageDir) x =
      vm.word (staticFrame pageDir) x := fun x hx =>
    hedit.rows _ (hafter.directories.dirFrame hactive) x fun hcell => hx hcell.2
  have hdir : ∀ target, Points vm.word (staticFrame pageDir)
      (virtAddr / 0x400000) target → staticFrame pageDir ≠ target :=
    fun target hpoints => ((h.table_ne hpd hpoints).ne_dir h.apart.directories
      h.active).symm
  have hfresh : ∀ address after, pmmAllocPageFrame frames =
      .ok (address, after) → staticFrame pageDir ≠ address / 0x1000 :=
    fun address after halloc => (hafter.directories.fresh h.active halloc).symm
  have hzero : 0 < frames.pageFrameMin := by
    rw [htakes.min]
    exact h.apart.directories.min_pos
  have hnew : next.word (staticFrame pageDir) (virtAddr / 0x400000) % 2 = 1 ∧
      next.word (staticFrame pageDir) (virtAddr / 0x400000) % 0x1000 = 7 ∧
      next.frames.free.card + (if virtAddr / 0x400000 ∈ tables then 0 else 1) =
        frames.free.card := by
    rcases hmaps.directory hdir hfresh with
      ⟨hpresent, hframes, hsame⟩ | ⟨habsent, address, htable, hvalue, -⟩
    · rw [hsame, hframes, if_pos ((h.tables _ hpd).2 hpresent)]
      exact ⟨hpresent, h.user _ hpd hpresent, Nat.add_zero _⟩
    · have htaken := pmmAllocPageFrame_takes htable
        ((hneed habsent).alloc_ne_zero hzero htable)
      have hnot : virtAddr / 0x400000 ∉ tables := by
        intro hmem
        have hpresent := (h.tables _ hpd).1 hmem
        have habsent : vm.word _ _ % 2 = 0 := habsent
        omega
      have huserEntry := tableEntry_user htaken.aligned
      rw [hvalue, if_neg hnot]
      exact ⟨by omega, huserEntry, htaken.card_free⟩
  have huserNext : ∀ x < 768, next.word (staticFrame pageDir) x % 2 = 1 →
      next.word (staticFrame pageDir) x % 0x1000 = 7 := by
    intro x hx hpresent
    by_cases hsame : x = virtAddr / 0x400000
    · rw [hsame]
      exact hnew.2.1
    · rw [hrow x hsame] at hpresent ⊢
      exact h.user x hx hpresent
  obtain ⟨hpage, hfree⟩ := h.maps huser htakes hafter hneed hwalks huserNext
    hmaps
  have hcr3 : next.cr3 = vm.cr3 := by
    cases hmaps <;> rfl
  refine ⟨{
    apart := hnext
    active := hedit.statics.active.2 hactive
    cr3 := hcr3.trans h.cr3
    self := h.self.congr (hrow 1023 (by omega))
    user := huserNext
    tables := ?_
    free := fun frame hmem => ?_
    cells := fun a ha => h.shows_map hpage ha }, hnew.2.2⟩
  · intro x hx
    rw [Finset.mem_insert]
    by_cases hsame : x = virtAddr / 0x400000
    · rw [hsame]
      simp only [true_or, true_iff]
      exact hnew.1
    · rw [hrow x hsame, ← h.tables x hx]
      simp [hsame]
  · obtain ⟨hold, hword⟩ := hfree frame hmem
    obtain ⟨hstartFree, hstartWord⟩ := h.free frame hold
    exact ⟨hstartFree, hword.trans hstartWord⟩

theorem Loading.map
    (h : Loading start live pageDir cells tables vm) {virtAddr phyAddr : ℕ}
    {frames : Frames} (huser : virtAddr < kernelStart)
    (htakes : Takes vm.frames frames phyAddr) (hphy : phyAddr < 4294967296)
    (halloc : pmmAllocPageFrame vm.frames = .ok (phyAddr, frames))
    (hfree : virtAddr / 0x400000 ∉ tables → 0 < frames.free.card) :
    ∃ next, memMapPage virtAddr phyAddr pageFlags { vm with frames := frames } =
        .ok next ∧
      Loading start live pageDir (Cell.step cells (.map virtAddr))
        (insert (virtAddr / 0x400000) tables) next ∧
      next.frames.free.card + (if virtAddr / 0x400000 ∈ tables then 0 else 1) =
        frames.free.card := by
  have hstart : kernelStart = 3221225472 := rfl
  have hpd : virtAddr / 0x400000 < 768 := by omega
  have hafter := h.apart.alloc halloc
  have hactive : Active { vm with frames := frames } live pageDir := h.active
  have hcr3 : memChangePageDir { vm with frames := frames } pageDir =
      { vm with frames := frames } := memChangePageDir_self h.cr3
  have hwindow : Window { vm with frames := frames } (staticFrame pageDir) :=
    ⟨h.window.outer, h.window.self⟩
  have hneed : vm.word (staticFrame pageDir) (virtAddr / 0x400000) % 2 = 0 →
      HasFree frames := by
    intro habsent
    refine Frames.hasFree (hfree fun hmem => ?_)
    have := (h.tables _ hpd).1 hmem
    omega
  have hflags : PageFlags pageFlags :=
    ⟨pageFlagWrite ||| pageFlagUser, by simp, .inl rfl⟩
  have hok : ∃ next, memMapPage virtAddr phyAddr pageFlags
      { vm with frames := frames } = .ok next := by
    rcases Nat.mod_two_eq_zero_or_one
      (vm.word (staticFrame pageDir) (virtAddr / 0x400000)) with
      habsent | hpresent
    · obtain ⟨address, taken, htable⟩ := (hneed habsent).alloc
      have hmap := hafter.directories.map_ok hactive
        (by omega : virtAddr < 0xFFC00000) htable phyAddr pageFlags
      rwa [hcr3] at hmap
    · have hpoints : Points vm.word (staticFrame pageDir)
          (virtAddr / 0x400000)
          (vm.word (staticFrame pageDir) (virtAddr / 0x400000) / 0x1000) :=
        ⟨hpresent, rfl⟩
      exact memMapPage_table hwindow huser hpoints phyAddr pageFlags
  obtain ⟨next, hnext⟩ := hok
  have hmap := hnext
  rw [← hcr3] at hmap
  obtain ⟨owner, howner, hpoints, hmaps⟩ :=
    hafter.directories.map_user hactive huser hmap
  have hsame : staticFrame owner = staticFrame pageDir :=
    hpoints.2.symm.trans h.self.2
  rw [hsame, hcr3] at hmaps
  obtain ⟨hloading, hcard⟩ :=
    h.mapped huser htakes hphy halloc hneed hmaps
  exact ⟨next, hnext, hloading, hcard⟩

/-! ## A byte -/

theorem Shows.mapped
    {dir a : ℕ} {cell : Cell} (h : Shows start vm dir a cell)
    (hcell : cell ≠ .unmapped) :
    ∃ frame, translate vm.word dir (a / 0x1000) = some (frame, 7, 7) := by
  cases cell with
  | unmapped => exact absurd rfl hcell
  | fresh =>
      obtain ⟨frame, -, hwalk, -⟩ := h
      exact ⟨frame, hwalk⟩
  | written value =>
      obtain ⟨frame, hwalk, -⟩ := h
      exact ⟨frame, hwalk⟩

/-- Two pages of the user half never share a frame. -/
theorem Loading.frames_injective
    (h : Loading start live pageDir cells tables vm) {page other frame : ℕ}
    {flags flags' : ℕ × ℕ} (hpage : page < 768 * 1024)
    (hother : other < 768 * 1024)
    (hwalk : translate vm.word (staticFrame pageDir) page = some (frame, flags))
    (hwalk' : translate vm.word (staticFrame pageDir) other =
      some (frame, flags')) : page = other := by
  obtain ⟨table, hat, his, hpoints, -⟩ := h.page hpage hwalk
  obtain ⟨table', hat', his', hpoints', -⟩ := h.page hother hwalk'
  obtain ⟨rfl, hentry⟩ := h.apart.pages table his table' his' _
    (Nat.mod_lt _ (by norm_num)) _ (Nat.mod_lt _ (by norm_num)) frame hpoints
    hpoints'
  have hindex := (h.apart.unique pageDir h.active pageDir h.active _ (by omega)
    _ (by omega) table hat hat').1
  omega

/-- A byte written into a page of the user half. -/
theorem Loading.setByte
    (h : Loading start live pageDir cells tables vm) {a frame value : ℕ}
    (ha : a < kernelStart) (hvalue : value < 256)
    (hwalk : translate vm.word (staticFrame pageDir) (a / 0x1000) =
      some (frame, 7, 7)) :
    Loading start live pageDir (Cell.step cells (.write a value)) tables
      (vm.setByte frame (a % 0x1000) value) := by
  have hstart : kernelStart = 3221225472 := rfl
  obtain ⟨-, -, -, -, hreferenced⟩ := h.page (by omega) hwalk
  have hbit := (h.apart.page frame hreferenced).2.1
  obtain ⟨hapart, hrow, htable⟩ :=
    h.apart.setByte hreferenced (a % 0x1000) value
  have hown := hrow pageDir h.active
  have hwalks : ∀ page < 768 * 1024,
      translate (vm.setByte frame (a % 0x1000) value).word
        (staticFrame pageDir) page =
          translate vm.word (staticFrame pageDir) page := by
    intro page hpage
    refine translate_keep (by rw [hown]) fun target hpoints _ => ?_
    rw [htable target (h.table_ne (by omega) hpoints)]
  exact {
    apart := hapart
    active := h.active
    cr3 := h.cr3
    self := h.self.congr (by rw [hown])
    user := by
      rw [hown]
      exact h.user
    tables := by
      rw [hown]
      exact h.tables
    free := by
      intro other hfree
      have hne : other ≠ frame := by
        rintro rfl
        obtain ⟨-, -, -, hclear⟩ := Frames.mem_free.1 hfree
        exact absurd hbit (by
          have hclear : vm.frames.physicalMemoryBitmap.bit other = false :=
            hclear
          rw [hclear]
          exact Bool.false_ne_true)
      rw [vm.setByte_word _ _ hne]
      exact h.free other hfree
    cells := by
      intro b hb
      have hpage : b / 0x1000 < 768 * 1024 := by omega
      by_cases hsame : b = a
      · subst hsame
        rw [Cell.step_write_same]
        exact ⟨frame, (hwalks _ hpage).trans hwalk,
          vm.byte_setByte_same _ _ hvalue⟩
      · have hbyte : ∀ other, translate vm.word (staticFrame pageDir)
            (b / 0x1000) = some (other, 7, 7) →
            (vm.setByte frame (a % 0x1000) value).byte other (b % 0x1000) =
              vm.byte other (b % 0x1000) := by
          intro other hother
          refine vm.byte_setByte_of_ne hvalue ?_
          by_cases hframe : other = frame
          · rw [hframe] at hother
            have hpages := h.frames_injective hpage (by omega) hother hwalk
            exact .inr (by omega)
          · exact .inl hframe
        rw [Cell.step_write_of_ne _ hsame]
        have hold := h.cells b hb
        cases hcell : cells b with
        | unmapped =>
            rw [hcell] at hold
            exact (hwalks _ hpage).trans hold
        | fresh =>
            rw [hcell] at hold
            obtain ⟨other, hfree, hother, hvalue⟩ := hold
            exact ⟨other, hfree, (hwalks _ hpage).trans hother,
              (hbyte other hother).trans hvalue⟩
        | written value =>
            rw [hcell] at hold
            obtain ⟨other, hother, hvalue⟩ := hold
            exact ⟨other, (hwalks _ hpage).trans hother,
              (hbyte other hother).trans hvalue⟩ }

end

end Elf

end ClOs
