import ClOs.AddressSpaces

/-!
# Isolation of address spaces

A copy of the kernel half also copies entry 1023 of `initial_page_dir`, so a
directory shows itself through the recursive mapping only until the next copy.
Without a copy after the first directory, user page tables belong to one entry
of one directory, and mapping a page changes nothing else.
-/

namespace ClOs.Memory

/-! ## Translation -/

theorem translate_congr
    {word word' : ℕ → ℕ → ℕ} {dir page : ℕ}
    (hdir : word' dir (page / 1024) = word dir (page / 1024))
    (htable : ∀ target, Points word dir (page / 1024) target →
      word' target (page % 1024) = word target (page % 1024)) :
    translate word' dir page = translate word dir page := by
  unfold translate
  rcases Nat.mod_two_eq_zero_or_one (word dir (page / 1024)) with
    habsent | hpresent
  · simp only [hdir, habsent, if_true]
  · simp only [hdir, htable _ ⟨hpresent, rfl⟩]

theorem translate_table
    {word : ℕ → ℕ → ℕ} {dir page target pte : ℕ}
    (htable : Points word dir (page / 1024) target)
    (hsmall : (word dir (page / 1024)).testBit 7 = false)
    (hentry : word target (page % 1024) = pte) :
    ∃ pde, translate word dir page =
      if pte % 2 = 0 then none else some (pte / 0x1000, pde, pte % 0x1000) := by
  have hpresent := htable.1
  refine ⟨word dir (page / 1024) % 0x1000, ?_⟩
  unfold translate
  simp only [htable.2, hsmall, hentry]
  rw [if_neg (by omega), if_neg (by simp)]

theorem translate_absent
    {word : ℕ → ℕ → ℕ} {dir page : ℕ}
    (habsent : word dir (page / 1024) % 2 = 0) :
    translate word dir page = none := by
  simp [translate, habsent]

/-! ## What a directory of one's own needs -/

def UsesTable (vm : Vm) (live : List ℕ) (frame : ℕ) : Prop :=
  ∃ pageDir, Active vm live pageDir ∧
    ∃ x < 1023, Points vm.word (staticFrame pageDir) x frame

/-- Only the first directory is made, the kernel half is mapped and unmapped
with `initial_page_dir` in CR3 and below the recursive mapping, a new user page
table finds a free frame and does not get bit 7, and no page is unmapped whose
frame is a page table. -/
def KeepsApart (vm : Vm) (live : List ℕ) (pageDir : ℕ) : VmmCall → Prop
  | .allocFrame => True
  | .newPageDir => live = []
  | .map virtAddr _ flags => virtAddr.toNat < 0xFFC00000 ∧
      (kernelStart ≤ virtAddr.toNat → pageDir = vm.initialPageDir) ∧
      (virtAddr.toNat < kernelStart →
        vm.word (staticFrame pageDir) (virtAddr.toNat / 0x400000) % 2 = 0 →
        flags.toNat.testBit 7 = false ∧
          ∃ frame, vm.frames.pageFrameMin ≤ frame ∧
            frame < vm.frames.pageFrameMax ∧
            vm.frames.physicalMemoryBitmap.bit frame = false)
  | .unmap virtAddr => virtAddr.toNat < 0xFFC00000 ∧
      ∀ table, Points vm.word
        (staticFrame (if kernelStart ≤ virtAddr.toNat then vm.initialPageDir
          else pageDir)) (virtAddr.toNat / 0x400000) table →
        vm.word table (virtAddr.toNat / 0x1000 % 0x400) % 2 = 1 →
        (kernelStart ≤ virtAddr.toNat → pageDir = vm.initialPageDir) ∧
          ∀ frame, frame = (vm.word table
            (virtAddr.toNat / 0x1000 % 0x400) &&& pageFlagFrame) / 0x1000 →
            vm.frames.pageFrameMin ≤ frame → ¬UsesTable vm live frame

structure Isolated (vm : Vm) (live : List ℕ) : Prop where
  directories : Directories vm live
  own : ∀ pageDir, Active vm live pageDir →
    vm.word (staticFrame pageDir) 1023 = selfEntry pageDir
  allocated : ∀ frame, UsesTable vm live frame →
    frame < vm.frames.pageFrameMin ∨
      vm.frames.physicalMemoryBitmap.bit frame = true
  user : ∀ pageDir, Active vm live pageDir → ∀ x < 768, ∀ table,
    Points vm.word (staticFrame pageDir) x table →
      vm.frames.pageFrameMin ≤ table ∧
        (vm.word (staticFrame pageDir) x).testBit 7 = false
  unique : ∀ pageDir, Active vm live pageDir → ∀ x < 768, ∀ table,
    Points vm.word (staticFrame pageDir) x table →
      ∀ other, Active vm live other → ∀ y < 1023,
        Points vm.word (staticFrame other) y table → other = pageDir ∧ y = x

/-! ## Frames -/

theorem pmmAllocPageFrame_bit
    {frames next : Frames} {address : ℕ}
    (halloc : pmmAllocPageFrame frames = .ok (address, next)) {frame : ℕ}
    (hset : frames.physicalMemoryBitmap.bit frame = true) :
    next.physicalMemoryBitmap.bit frame = true := by
  rcases pmmAllocFrom_spec halloc with
    ⟨-, rfl⟩ | ⟨taken, -, -, -, -, -, rfl⟩
  · exact hset
  · simp [ByteStore.bit_setBit, hset]

theorem pmmAllocPageFrame_taken
    {frames next : Frames} {address : ℕ}
    (halloc : pmmAllocPageFrame frames = .ok (address, next)) :
    address = 0 ∨ address % 0x1000 = 0 ∧
      frames.pageFrameMin ≤ address / 0x1000 ∧
        frames.physicalMemoryBitmap.bit (address / 0x1000) = false ∧
        next.physicalMemoryBitmap.bit (address / 0x1000) = true := by
  rcases pmmAllocFrom_spec halloc with
    ⟨rfl, -⟩ | ⟨taken, hlow, -, hbound, hclear, rfl, rfl⟩
  · exact .inl rfl
  · have hnum : numPageFrames = 65536 := by norm_num [numPageFrames]
    right
    rw [u32_of_lt (by omega), Nat.mul_div_cancel _ (by norm_num)]
    exact ⟨Nat.mul_mod_left _ _, hlow, hclear,
      by simp [ByteStore.bit_setBit]⟩

theorem pmmAllocFrom_full
    {frames next : Frames} {count first : ℕ} (hpos : 0 < first)
    (halloc : pmmAllocFrom frames count first = .ok (0, next))
    {frame : ℕ} (hlow : first ≤ frame) (hhigh : frame < first + count) :
    frames.physicalMemoryBitmap.bit frame = true := by
  induction count generalizing first with
  | zero => omega
  | succ count ih =>
      simp only [pmmAllocFrom] at halloc
      split_ifs at halloc with hbounds hbit
      · rcases Nat.eq_or_lt_of_le hlow with rfl | hlt
        · exact hbit
        · exact ih (by omega) halloc hlt (by omega)
      · simp only [Except.ok.injEq, Prod.mk.injEq] at halloc
        have hzero := halloc.1
        have hnum : numPageFrames / 8 = 8192 := by norm_num [numPageFrames]
        rw [u32_of_lt (by omega)] at hzero
        omega

theorem pmmFreePageFrame_bit
    {frames next : Frames} {address : ℕ}
    (hfree : pmmFreePageFrame address frames = .ok next) {frame : ℕ}
    (hother : frame = address / 0x1000 → frame < frames.pageFrameMin)
    (hset : frames.physicalMemoryBitmap.bit frame = true) :
    next.physicalMemoryBitmap.bit frame = true := by
  unfold pmmFreePageFrame at hfree
  simp only at hfree
  split_ifs at hfree with hrange hbounds hbit
  · cases hfree
    exact hset
  · cases hfree
    simp only
    have hne : frame ≠ address / 0x1000 := by
      intro hsame
      have := hother hsame
      omega
    simp [ByteStore.bit_clearBit, hset, hne.symm]
  · cases hfree
    exact hset

theorem tableEntry_small
    {address flags : ℕ} (haddress : address % 0x1000 = 0)
    (hflags : flags.testBit 7 = false) :
    (tableEntry address (flags &&& 0x3FF)).testBit 7 = false := by
  have hlow : address.testBit 7 = false := by
    have hmod := Nat.testBit_mod_two_pow address 12 7
    rw [show 2 ^ 12 = 0x1000 from rfl, haddress] at hmod
    simpa using hmod.symm
  have hpresent : pageFlagPresent.testBit 7 = false := by decide
  have hwrite : pageFlagWrite.testBit 7 = false := by decide
  simp [tableEntry, hlow, hflags, hpresent, hwrite]

/-! ## Steps -/

section

variable {vm mid next : Vm} {live : List ℕ} {pageDir owner pdIndex : ℕ}

theorem Isolated.change (h : Isolated vm live) (pageDir : ℕ) :
    Isolated (memChangePageDir vm pageDir) live :=
  ⟨h.directories.change pageDir, h.own, h.allocated, h.user, h.unique⟩

theorem Isolated.alloc (h : Isolated vm live)
    {address : ℕ} {frames : Frames}
    (halloc : pmmAllocPageFrame vm.frames = .ok (address, frames)) :
    Isolated { vm with frames := frames } live where
  directories := h.directories.alloc halloc
  own := h.own
  allocated frame huses := by
    rw [(pmmAllocPageFrame_cases halloc).1]
    exact (h.allocated frame huses).imp id (pmmAllocPageFrame_bit halloc)
  user := by
    rw [(pmmAllocPageFrame_cases halloc).1]
    exact h.user
  unique := h.unique

theorem Directories.min_pos (h : Directories vm live) :
    0 < vm.frames.pageFrameMin :=
  lt_of_le_of_lt (Nat.zero_le _)
    (h.layout.frame_lt _ (h.dirFrame (.inl rfl)))

theorem Directories.frame_injective (h : Directories vm live)
    {other : ℕ} (hactive : Active vm live pageDir)
    (hother : Active vm live other)
    (hframe : staticFrame other = staticFrame pageDir) : other = pageDir :=
  h.layout.injective _ _ (h.static hother) (h.static hactive) hframe

theorem Isolated.owner_eq (h : Isolated vm live)
    (hactive : Active vm live pageDir) (howner : Active vm live owner)
    (hself : Points vm.word (staticFrame pageDir) 1023 (staticFrame owner)) :
    owner = pageDir := by
  refine h.directories.frame_injective hactive howner ?_
  rw [← hself.2, h.own pageDir hactive]
  exact selfEntry_points.2

theorem Isolated.edit (h : Isolated vm live)
    (howner : Active vm live owner) (hpd : pdIndex < 1023)
    (hedit : EditsDir vm mid (staticFrame owner) pdIndex)
    (hentry : mid.word (staticFrame owner) pdIndex =
        vm.word (staticFrame owner) pdIndex ∨
      ∀ table, Points mid.word (staticFrame owner) pdIndex table →
        (table < vm.frames.pageFrameMin ∨
          mid.frames.physicalMemoryBitmap.bit table = true) ∧
        (pdIndex < 768 → vm.frames.pageFrameMin ≤ table ∧
          (mid.word (staticFrame owner) pdIndex).testBit 7 = false) ∧
        (table < vm.frames.pageFrameMin ∨ ¬UsesTable vm live table))
    (hbits : ∀ frame, UsesTable mid live frame →
      vm.frames.physicalMemoryBitmap.bit frame = true →
        mid.frames.physicalMemoryBitmap.bit frame = true) :
    Isolated mid live := by
  have hactive : ∀ {pageDir}, Active mid live pageDir →
      Active vm live pageDir := by
    intro pageDir hp
    unfold Active at hp ⊢
    rwa [hedit.statics.initialPageDir] at hp
  have hkeep : ∀ {pageDir x}, Active vm live pageDir →
      ¬(pageDir = owner ∧ x = pdIndex) →
        mid.word (staticFrame pageDir) x = vm.word (staticFrame pageDir) x := by
    intro pageDir x hp hother
    refine hedit.rows _ (h.directories.dirFrame hp) x ?_
    rintro ⟨hframe, hx⟩
    exact hother ⟨h.directories.frame_injective howner hp hframe, hx⟩
  have hback : ∀ {pageDir x table}, Active vm live pageDir →
      Points mid.word (staticFrame pageDir) x table →
        (Points vm.word (staticFrame pageDir) x table ∧
          mid.word (staticFrame pageDir) x =
            vm.word (staticFrame pageDir) x) ∨
        pageDir = owner ∧ x = pdIndex ∧
          (table < vm.frames.pageFrameMin ∨
            mid.frames.physicalMemoryBitmap.bit table = true) ∧
          (x < 768 → vm.frames.pageFrameMin ≤ table ∧
            (mid.word (staticFrame pageDir) x).testBit 7 = false) ∧
          (table < vm.frames.pageFrameMin ∨ ¬UsesTable vm live table) := by
    intro pageDir x table hp hpoints
    by_cases hedited : pageDir = owner ∧ x = pdIndex
    · obtain ⟨rfl, rfl⟩ := hedited
      rcases hentry with hsame | hnew
      · exact .inl ⟨hpoints.congr hsame.symm, hsame⟩
      · exact .inr ⟨rfl, rfl, hnew table hpoints⟩
    · have hsame := hkeep hp hedited
      exact .inl ⟨hpoints.congr hsame.symm, hsame⟩
  exact {
    directories := h.directories.edit hedit hpd
    own := by
      intro pageDir hp
      rw [hkeep (hactive hp) (by omega)]
      exact h.own pageDir (hactive hp)
    allocated := by
      intro frame huses
      rw [hedit.statics.pageFrameMin]
      obtain ⟨pageDir, hp, x, hx, hpoints⟩ := huses
      rcases hback (hactive hp) hpoints with ⟨hold, -⟩ | ⟨-, -, hbit, -⟩
      · exact (h.allocated frame ⟨pageDir, hactive hp, x, hx, hold⟩).imp id
          (hbits frame ⟨pageDir, hp, x, hx, hpoints⟩)
      · exact hbit
    user := by
      intro pageDir hp x hx table hpoints
      rw [hedit.statics.pageFrameMin]
      rcases hback (hactive hp) hpoints with
        ⟨hold, hsame⟩ | ⟨-, -, -, huser, -⟩
      · rw [hsame]
        exact h.user pageDir (hactive hp) x hx table hold
      · exact huser hx
    unique := by
      intro pageDir hp x hx table hpoints other hother y hy hpoints'
      rcases hback (hactive hp) hpoints with
        ⟨hold, -⟩ | ⟨rfl, rfl, -, huser, hfresh⟩
      · have hlow := (h.user pageDir (hactive hp) x hx table hold).1
        rcases hback (hactive hother) hpoints' with
          ⟨hold', -⟩ | ⟨-, -, -, -, hfresh⟩
        · exact h.unique pageDir (hactive hp) x hx table hold other
            (hactive hother) y hy hold'
        · rcases hfresh with hbelow | hunused
          · omega
          · exact absurd ⟨pageDir, hactive hp, x, by omega, hold⟩ hunused
      · have hlow := (huser hx).1
        rcases hback (hactive hother) hpoints' with
          ⟨hold', -⟩ | ⟨rfl, rfl, -⟩
        · rcases hfresh with hbelow | hunused
          · omega
          · exact absurd ⟨other, hactive hother, y, hy, hold'⟩ hunused
        · exact ⟨rfl, rfl⟩ }

theorem EditsDir.usesTable (hdirs : Directories vm live)
    (hedit : EditsDir vm mid (staticFrame owner) pdIndex)
    (hsame : mid.word (staticFrame owner) pdIndex =
      vm.word (staticFrame owner) pdIndex)
    {frame : ℕ} (huses : UsesTable mid live frame) :
    UsesTable vm live frame := by
  obtain ⟨pageDir, hp, x, hx, hpoints⟩ := huses
  have hactive : Active vm live pageDir := by
    unfold Active at hp ⊢
    rwa [hedit.statics.initialPageDir] at hp
  refine ⟨pageDir, hactive, x, hx, hpoints.congr ?_⟩
  by_cases hentry : staticFrame pageDir = staticFrame owner ∧ x = pdIndex
  · obtain ⟨hframe, rfl⟩ := hentry
    rw [hframe, hsame]
  · exact (hedit.rows _ (hdirs.dirFrame hactive) x hentry).symm

theorem Isolated.taken (h : Isolated vm live)
    {address : ℕ} {frames : Frames}
    (halloc : pmmAllocPageFrame vm.frames = .ok (address, frames)) :
    address = 0 ∨ address % 0x1000 = 0 ∧
      vm.frames.pageFrameMin ≤ address / 0x1000 ∧
      frames.physicalMemoryBitmap.bit (address / 0x1000) = true ∧
      ¬UsesTable vm live (address / 0x1000) := by
  rcases pmmAllocPageFrame_taken halloc with
    hzero | ⟨haligned, hrange, hclear, hset⟩
  · exact .inl hzero
  · refine .inr ⟨haligned, hrange, hset, ?_⟩
    intro huses
    rcases h.allocated _ huses with hlow | hused
    · exact absurd hrange (not_le.2 hlow)
    · rw [hclear] at hused
      cases hused

theorem Directories.alloc_ne_zero (h : Directories vm live)
    {address frame : ℕ} {frames : Frames}
    (halloc : pmmAllocPageFrame vm.frames = .ok (address, frames))
    (hlow : vm.frames.pageFrameMin ≤ frame)
    (hhigh : frame < vm.frames.pageFrameMax)
    (hclear : vm.frames.physicalMemoryBitmap.bit frame = false) :
    address ≠ 0 := by
  rintro rfl
  have hfull := pmmAllocFrom_full h.min_pos halloc hlow (by omega)
  rw [hclear] at hfull
  cases hfull

/-- The page table that a user page needs is one that no entry uses. -/
theorem Isolated.map (h : Isolated vm live) (howner : Active vm live owner)
    (hpd : pdIndex < 1023) {ptIndex flags entry : ℕ}
    (hmaps : MapsIn vm (staticFrame owner) pdIndex ptIndex (flags &&& 0x3FF)
      entry mid)
    (hfree : pdIndex < 768 → vm.word (staticFrame owner) pdIndex % 2 = 0 →
      flags.testBit 7 = false ∧ ∃ frame, vm.frames.pageFrameMin ≤ frame ∧
        frame < vm.frames.pageFrameMax ∧
        vm.frames.physicalMemoryBitmap.bit frame = false) :
    Isolated mid live := by
  have hedit := h.directories.map_edits howner hpd hmaps
  have hmin := h.directories.min_pos
  cases hmaps with
  | present htable =>
      refine h.edit howner hpd hedit (.inl ?_)
        (fun _ _ hset => hset)
      exact setAt_of_ne _ _
        (.inl (h.directories.table_ne howner hpd htable howner).symm)
  | @absent address count frames habsent halloc =>
      have hflags := Nat.and_lt_two_pow flags
        (by norm_num : 0x3FF < 2 ^ 10)
      have hframe := h.directories.fresh howner halloc
      have hword : setAt (newTable vm.word (staticFrame owner) pdIndex address
          (flags &&& 0x3FF)) (address / 0x1000) ptIndex entry
            (staticFrame owner) pdIndex =
              tableEntry address (flags &&& 0x3FF) := by
        rw [setAt_of_ne _ _ (.inl hframe.symm), newTable,
          clearTable_of_ne _ _ hframe.symm, setAt_same]
      refine h.edit howner hpd hedit (.inr ?_)
        (fun _ _ => pmmAllocPageFrame_bit halloc)
      intro table hpoints
      have htable : table = address / 0x1000 := by
        have hdiv := hpoints.2
        simp only [hword] at hdiv
        rw [← hdiv]
        exact (tableEntry_spec address hflags).2
      subst htable
      rcases h.taken halloc with rfl | ⟨haligned, hrange, hset, hunused⟩
      · refine ⟨.inl hmin, fun huser => ?_, .inl hmin⟩
        obtain ⟨-, frame, hlow, hhigh, hclear⟩ := hfree huser habsent
        exact absurd rfl
          (h.directories.alloc_ne_zero halloc hlow hhigh hclear)
      · refine ⟨.inr hset, fun huser => ⟨hrange, ?_⟩, .inr hunused⟩
        simp only [hword]
        exact tableEntry_small haligned (hfree huser habsent).1

theorem Isolated.unmap (h : Isolated vm live) (howner : Active vm live owner)
    (hpd : pdIndex < 1023) {ptIndex : ℕ} {user : Prop}
    (huserHalf : user → pdIndex < 768)
    (hunmaps : UnmapsIn vm (staticFrame owner) pdIndex ptIndex user mid)
    (hkeep : ∀ table, Points vm.word (staticFrame owner) pdIndex table →
      vm.word table ptIndex % 2 = 1 → ∀ frame,
        frame = (vm.word table ptIndex &&& pageFlagFrame) / 0x1000 →
          vm.frames.pageFrameMin ≤ frame → ¬UsesTable vm live frame) :
    Isolated mid live := by
  have hedit := h.directories.unmap_edits howner hpd hunmaps
  have hpageBits : ∀ {table : ℕ} {freed : Vm},
      Points vm.word (staticFrame owner) pdIndex table →
      vm.word table ptIndex % 2 = 1 →
      freePage (vm.word table ptIndex) vm = .ok freed →
      ∀ frame, UsesTable vm live frame →
        vm.frames.physicalMemoryBitmap.bit frame = true →
          freed.frames.physicalMemoryBitmap.bit frame = true := by
    intro table freed htable hpage hfree frame huses hset
    rcases freePage_frames hfree with hsame | hfreed
    · rw [hsame]
      exact hset
    · refine pmmFreePageFrame_bit hfreed ?_ hset
      intro hsame
      by_contra hlow
      exact hkeep table htable hpage frame hsame (not_lt.1 hlow) huses
  cases hunmaps with
  | none hnone => exact h
  | @page table count freed htable hpage hfree =>
      have hsame : setAt vm.word table ptIndex 0 (staticFrame owner) pdIndex =
          vm.word (staticFrame owner) pdIndex :=
        setAt_of_ne _ _
          (.inl (h.directories.table_ne howner hpd htable howner).symm)
      refine h.edit howner hpd hedit (.inl hsame) ?_
      intro frame huses hset
      exact hpageBits htable hpage hfree frame
        (hedit.usesTable h.directories hsame huses) hset
  | @table table count freed frames huser htable hpage hfree hempty hdrop =>
      have hzero : setAt (setAt vm.word table ptIndex 0) (staticFrame owner)
          pdIndex 0 (staticFrame owner) pdIndex = 0 := setAt_same _ _ _ _
      refine h.edit howner hpd hedit (.inr ?_) ?_
      · intro target hpoints
        have hpresent := hpoints.1
        simp at hpresent
      · rintro frame ⟨other, hother, y, hy, hpoints⟩ hset
        have hentry : ¬(staticFrame other = staticFrame owner ∧
            y = pdIndex) := by
          rintro ⟨hframe, rfl⟩
          have hpresent := hpoints.1
          simp [hframe] at hpresent
        have hrow := hedit.rows _ (h.directories.dirFrame hother) y hentry
        have hold : Points vm.word (staticFrame other) y frame :=
          hpoints.congr hrow.symm
        have hfreed := hpageBits htable hpage hfree frame
          ⟨other, hother, y, hy, hold⟩ hset
        refine pmmFreePageFrame_bit hdrop ?_ hfreed
        intro hsame
        have hbound := h.directories.bounded owner howner pdIndex
        have hframe : frame = table := by
          rw [hsame, and_pageFlagFrame hbound,
            Nat.mul_div_cancel _ (by norm_num)]
          exact htable.2
        rw [hframe] at hold
        obtain ⟨rfl, rfl⟩ := h.unique owner howner pdIndex (huserHalf huser)
          table htable other hother y hy hold
        exact absurd ⟨rfl, rfl⟩ hentry

theorem Isolated.newPageDir (h : Isolated vm []) {i : ℕ}
    (hi : i < numPageDirs) (hunused : vm.pageDirsUsed i = false) :
    Isolated (addPageDir vm i) [vm.pageDirs i] := by
  have hinitial := addPageDir_initial h.directories.layout hi
  have hcases : ∀ {pageDir}, Active (addPageDir vm i) [vm.pageDirs i] pageDir →
      pageDir = vm.initialPageDir ∨ pageDir = vm.pageDirs i :=
    fun hactive => hactive.imp id List.mem_singleton.1
  have hback : ∀ {pageDir x table}, x < 1023 →
      Active (addPageDir vm i) [vm.pageDirs i] pageDir →
      Points (addPageDir vm i).word (staticFrame pageDir) x table →
        Points vm.word (staticFrame vm.initialPageDir) x table ∧
          (pageDir = vm.initialPageDir ∨ 768 ≤ x) := by
    intro pageDir x table hx hactive hpoints
    rcases hcases hactive with rfl | rfl
    · exact ⟨hpoints.congr (hinitial x).symm, .inl rfl⟩
    · obtain ⟨hhalf, hsource⟩ :=
        addPageDir_points h.directories hi hx hpoints
      exact ⟨hsource, .inr hhalf⟩
  exact {
    directories := h.directories.newPageDir hi hunused
    own := by
      intro pageDir hactive
      rcases hcases hactive with rfl | rfl
      · exact (hinitial 1023).trans (h.own _ (.inl rfl))
      · rw [addPageDir_row h.directories.layout hi, if_pos rfl]
    allocated := by
      rintro frame ⟨pageDir, hactive, x, hx, hpoints⟩
      exact h.allocated frame ⟨_, .inl rfl, x, hx, (hback hx hactive hpoints).1⟩
    user := by
      intro pageDir hactive x hx table hpoints
      obtain ⟨hsource, rfl | hhalf⟩ := hback (by omega) hactive hpoints
      · rw [hinitial]
        exact h.user _ (.inl rfl) x hx table hsource
      · omega
    unique := by
      intro pageDir hactive x hx table hpoints other hother y hy hpoints'
      obtain ⟨hsource, hfirst⟩ := hback (by omega) hactive hpoints
      obtain ⟨hsource', hsecond⟩ := hback hy hother hpoints'
      obtain ⟨-, rfl⟩ := h.unique _ (.inl rfl) x hx table hsource _ (.inl rfl)
        y hy hsource'
      have hsame : pageDir = vm.initialPageDir := hfirst.resolve_right (by omega)
      have hsame' : other = vm.initialPageDir := hsecond.resolve_right (by omega)
      exact ⟨hsame'.trans hsame.symm, rfl⟩ }

theorem map_isolated
    {virtAddr phyAddr flags : UInt32}
    (h : Isolated vm live) (hactive : Active vm live pageDir)
    (hmay : KeepsApart vm live pageDir (.map virtAddr phyAddr flags))
    (hok : memMapPage virtAddr.toNat phyAddr.toNat flags.toNat
      (memChangePageDir vm pageDir) = .ok next) :
    Isolated next live := by
  have hstart : kernelStart = 3221225472 := rfl
  obtain ⟨hbelow, hinitial, hfree⟩ := hmay
  rcases Nat.lt_or_ge virtAddr.toNat kernelStart with huser | hkernel
  · obtain ⟨owner, howner, hself, hmaps⟩ :=
      h.directories.map_user hactive huser hok
    obtain rfl := h.owner_eq hactive howner hself
    exact (h.change owner).map howner (by omega) hmaps (fun _ => hfree huser)
  · obtain rfl := hinitial hkernel
    obtain ⟨mapped, hmaps, rfl⟩ :=
      h.directories.map_kernel hactive hkernel hbelow hok
    have hmapped := (h.change _).map (.inl rfl) (by omega) hmaps
      (fun _ => by omega)
    have hedit := (h.directories.change vm.initialPageDir).map_edits
      (.inl rfl) (by omega) hmaps
    have hleave : leaveKernelHalf vm.initialPageDir mapped = mapped :=
      leaveKernelHalf_initial hedit.statics.initialPageDir
    rw [hleave]
    exact hmapped

theorem unmap_isolated
    {virtAddr : UInt32}
    (h : Isolated vm live) (hactive : Active vm live pageDir)
    (hmay : KeepsApart vm live pageDir (.unmap virtAddr))
    (hok : memUnmapPage virtAddr.toNat (memChangePageDir vm pageDir) =
      .ok next) :
    Isolated next live := by
  have hstart : kernelStart = 3221225472 := rfl
  obtain ⟨hbelow, hkeep⟩ := hmay
  rcases Nat.lt_or_ge virtAddr.toNat kernelStart with huser | hkernel
  · rw [if_neg (by omega)] at hkeep
    obtain ⟨owner, howner, hself, hunmaps⟩ :=
      h.directories.unmap_user hactive huser hok
    obtain rfl := h.owner_eq hactive howner hself
    exact (h.change owner).unmap howner (by omega) (fun _ => by omega) hunmaps
      (fun table htable hpage => (hkeep table htable hpage).2)
  · rw [if_pos hkernel] at hkeep
    rcases h.directories.unmap_kernel hactive hkernel hbelow hok with
      ⟨-, rfl⟩ | ⟨table, unmapped, htable, hpage, hunmaps, rfl⟩
    · exact h.change pageDir
    · obtain rfl := (hkeep table htable hpage).1 hkernel
      have hunmapped := (h.change _).unmap (.inl rfl) (by omega)
        (fun huser => by omega) hunmaps
        (fun table htable hpage => (hkeep table htable hpage).2)
      have hedit := (h.directories.change vm.initialPageDir).unmap_edits
        (.inl rfl) (by omega) hunmaps
      have hleave : leaveKernelHalf vm.initialPageDir unmapped = unmapped :=
        leaveKernelHalf_initial hedit.statics.initialPageDir
      rw [hleave]
      exact hunmapped

theorem call_isolated
    {result : ℕ} {call : VmmCall}
    (h : Isolated vm live) (hactive : Active vm live pageDir)
    (hmay : KeepsApart vm live pageDir call)
    (hcall : call.run (memChangePageDir vm pageDir) = .ok (result, next)) :
    Isolated next (if result = 0 then live else result :: live) := by
  have hchanged := h.change pageDir
  cases call with
  | allocFrame =>
      obtain ⟨rfl, address, frames, halloc, rfl⟩ :=
        VmmCall.run_allocFrame hcall
      exact hchanged.alloc halloc
  | newPageDir =>
      have hempty : live = [] := hmay
      subst hempty
      rcases VmmCall.run_newPageDir hcall with
        ⟨rfl, rfl⟩ | ⟨i, hi, hunused, rfl, rfl⟩
      · exact hchanged
      · rw [if_neg (hchanged.directories.layout.slot_ne_zero hi)]
        exact hchanged.newPageDir hi hunused
  | map virtAddr phyAddr flags =>
      obtain ⟨rfl, hmap⟩ := VmmCall.run_map hcall
      exact map_isolated h hactive hmay hmap
  | unmap virtAddr =>
      obtain ⟨rfl, hunmap⟩ := VmmCall.run_unmap hcall
      exact unmap_isolated h hactive hmay hunmap

end

/-! ## Mapping a user page -/

/-- A call that leaves `word` has mapped the page in its directory as it was
asked to.  Of all pages of all address spaces it has changed no other, but for
the page of the recursive mapping that shows the page's own page table. -/
structure Isolates (vm : Vm) (word : ℕ → ℕ → ℕ) (live : List ℕ)
    (pageDir virtAddr phyAddr flags : ℕ) : Prop where
  mapped : ∃ pde, translate word (staticFrame pageDir) (virtAddr / 0x1000) =
    let pte := (phyAddr &&& pageFlagFrame) ||| (flags &&& 0x3FF)
    if pte % 2 = 0 then none else some (pte / 0x1000, pde, pte % 0x1000)
  others : ∀ other, Active vm live other → ∀ page < 0x100000,
    ¬(other = pageDir ∧ (page = virtAddr / 0x1000 ∨
      page = 0xFFC00 + virtAddr / 0x400000)) →
    translate word (staticFrame other) page =
      translate vm.word (staticFrame other) page

section

variable {vm next : Vm} {live : List ℕ} {pageDir virtAddr : ℕ}

theorem Isolated.table_same (h : Isolated vm live)
    {other x table : ℕ} (hother : Active vm live other) (hx : x < 1024)
    (htable : Points vm.word (staticFrame other) x table) :
    (x = 1023 ∧ table = staticFrame other) ∨ x < 1023 := by
  rcases Nat.lt_or_ge x 1023 with hlow | hhigh
  · exact .inr hlow
  · obtain rfl : x = 1023 := by omega
    have hframe := htable.2
    rw [h.own other hother, selfEntry_points.2] at hframe
    exact .inl ⟨rfl, hframe.symm⟩

theorem Isolated.isolates_present (h : Isolated vm live)
    (hactive : Active vm live pageDir) (huser : virtAddr < kernelStart)
    {phyAddr flags table : ℕ}
    (htable : Points vm.word (staticFrame pageDir) (virtAddr / 0x400000)
      table) :
    Isolates vm (setAt vm.word table (virtAddr / 0x1000 % 0x400)
        ((phyAddr &&& pageFlagFrame) ||| (flags &&& 0x3FF)))
      live pageDir virtAddr phyAddr flags := by
  have hstart : kernelStart = 3221225472 := rfl
  have hdir : ∀ {other}, Active vm live other → staticFrame other ≠ table :=
    fun hother =>
      (h.directories.table_ne hactive (by omega) htable hother).symm
  have hindex : virtAddr / 0x1000 / 1024 = virtAddr / 0x400000 := by omega
  have hsmall := (h.user pageDir hactive _ (by omega) table htable).2
  rw [← hindex] at htable hsmall
  constructor
  · have hsame : setAt vm.word table (virtAddr / 0x1000 % 0x400)
        ((phyAddr &&& pageFlagFrame) ||| (flags &&& 0x3FF))
          (staticFrame pageDir) (virtAddr / 0x1000 / 1024) =
        vm.word (staticFrame pageDir) (virtAddr / 0x1000 / 1024) :=
      setAt_of_ne _ _ (.inl (hdir hactive))
    refine translate_table (htable.congr hsame) ?_ (setAt_same _ _ _ _)
    simpa only [hsame] using hsmall
  · intro other hother page hpage hne
    refine translate_congr (setAt_of_ne _ _ (.inl (hdir hother))) ?_
    intro target htarget
    refine setAt_of_ne _ _ ?_
    rcases h.table_same hother (by omega) htarget with ⟨-, rfl⟩ | hlow
    · exact .inl (hdir hother)
    · by_cases hsame : target = table
      · subst hsame
        obtain ⟨rfl, hx⟩ := h.unique pageDir hactive _ (by omega) target htable
          other hother _ hlow htarget
        right
        intro hy
        exact hne ⟨rfl, .inl (by omega)⟩
      · exact .inl hsame

theorem Isolated.isolates_absent (h : Isolated vm live)
    (hactive : Active vm live pageDir)
    {phyAddr flags address : ℕ} {word : ℕ → ℕ → ℕ}
    (habsent : vm.word (staticFrame pageDir) (virtAddr / 0x400000) % 2 = 0)
    (haligned : address % 0x1000 = 0) (hsmall : flags.testBit 7 = false)
    (hunused : ¬UsesTable vm live (address / 0x1000))
    (hframe : ∀ other, Active vm live other →
      staticFrame other ≠ address / 0x1000)
    (hword : word = setAt (newTable vm.word (staticFrame pageDir)
        (virtAddr / 0x400000) address (flags &&& 0x3FF)) (address / 0x1000)
      (virtAddr / 0x1000 % 0x400)
      ((phyAddr &&& pageFlagFrame) ||| (flags &&& 0x3FF))) :
    Isolates vm word live pageDir virtAddr phyAddr flags := by
  have hindex : virtAddr / 0x1000 / 1024 = virtAddr / 0x400000 := by omega
  have hflags := Nat.and_lt_two_pow flags (by norm_num : 0x3FF < 2 ^ 10)
  have hother : ∀ {g j}, g ≠ address / 0x1000 →
      ¬(g = staticFrame pageDir ∧ j = virtAddr / 0x400000) →
        word g j = vm.word g j := by
    intro g j hg hentry
    rw [hword, setAt_of_ne _ _ (.inl hg), newTable, clearTable_of_ne _ _ hg]
    refine setAt_of_ne _ _ ?_
    by_cases hdir : g = staticFrame pageDir
    · exact .inr (fun hj => hentry ⟨hdir, hj⟩)
    · exact .inl hdir
  have hentry : word (staticFrame pageDir) (virtAddr / 0x400000) =
      tableEntry address (flags &&& 0x3FF) := by
    have hne := hframe pageDir hactive
    rw [hword, setAt_of_ne _ _ (.inl hne), newTable, clearTable_of_ne _ _ hne,
      setAt_same]
  have hpoints : Points word (staticFrame pageDir) (virtAddr / 0x400000)
      (address / 0x1000) := by
    unfold Points
    rw [hentry]
    exact tableEntry_spec address hflags
  have hpde : (word (staticFrame pageDir) (virtAddr / 0x400000)).testBit 7 =
      false := by
    rw [hentry]
    exact tableEntry_small haligned hsmall
  have htable : ∀ j < 1024, j ≠ virtAddr / 0x1000 % 0x400 →
      word (address / 0x1000) j = 0 := by
    intro j hj hne
    rw [hword, setAt_of_ne _ _ (.inr hne), newTable, clearTable_same _ _ hj]
  constructor
  · rw [← hindex] at hpoints hpde
    refine translate_table hpoints hpde ?_
    rw [hword]
    exact setAt_same _ _ _ _
  · intro other hp page hpage hne
    by_cases hedited : other = pageDir ∧ page / 1024 = virtAddr / 0x400000
    · obtain ⟨rfl, hx⟩ := hedited
      rw [← hx] at hpoints hpde habsent
      have hzero := htable (page % 1024) (by omega)
        (fun hj => hne ⟨rfl, .inl (by omega)⟩)
      obtain ⟨pde, hnext⟩ := translate_table hpoints hpde hzero
      rw [translate_absent habsent]
      simpa using hnext
    · have hrow : ¬(staticFrame other = staticFrame pageDir ∧
          page / 1024 = virtAddr / 0x400000) := by
        rintro ⟨hsame, hx⟩
        exact hedited ⟨h.directories.frame_injective hactive hp hsame, hx⟩
      refine translate_congr (hother (hframe other hp) hrow) ?_
      intro target htarget
      rcases h.table_same hp (by omega) htarget with ⟨hx, rfl⟩ | hlow
      · refine hother (hframe other hp) ?_
        rintro ⟨hsame, hy⟩
        exact hne ⟨h.directories.frame_injective hactive hp hsame,
          .inr (by omega)⟩
      · refine hother ?_ ?_
        · rintro rfl
          exact hunused ⟨other, hp, _, hlow, htarget⟩
        · rintro ⟨rfl, -⟩
          exact h.directories.table_ne hp hlow htarget hactive rfl

theorem Isolated.isolates (h : Isolated vm live)
    {virtAddr phyAddr flags : UInt32}
    (hactive : Active vm live pageDir) (huser : virtAddr.toNat < kernelStart)
    (hmay : KeepsApart vm live pageDir (.map virtAddr phyAddr flags))
    (hok : memMapPage virtAddr.toNat phyAddr.toNat flags.toNat
      (memChangePageDir vm pageDir) = .ok next) :
    Isolates vm next.word live pageDir virtAddr.toNat phyAddr.toNat
      flags.toNat := by
  obtain ⟨-, -, hfree⟩ := hmay
  obtain ⟨owner, howner, hself, hmaps⟩ :=
    h.directories.map_user hactive huser hok
  obtain rfl := h.owner_eq hactive howner hself
  cases hmaps with
  | present htable => exact h.isolates_present howner huser htable
  | @absent address count frames habsent halloc =>
      obtain ⟨hsmall, frame, hlow, hhigh, hclear⟩ := hfree huser habsent
      have hzero := h.directories.alloc_ne_zero halloc hlow hhigh hclear
      obtain ⟨haligned, -, -, hunused⟩ := (h.taken halloc).resolve_left hzero
      exact h.isolates_absent howner habsent haligned hsmall hunused
        (fun other hother => (h.directories.fresh hother halloc).symm) rfl

end

/-! ## Runs -/

section

variable {initialPageDir pageDirs kernelEnd memHigh : ℕ}
  {memory : ℕ → ℕ → ℕ} {vm : Vm} {live : List ℕ}

theorem bootState_isolated
    (himage : KernelImage initialPageDir pageDirs kernelEnd) :
    Isolated (bootState initialPageDir pageDirs kernelEnd memHigh memory)
      [] := by
  have hdirs : Directories
      (bootState initialPageDir pageDirs kernelEnd memHigh memory) [] :=
    bootState_directories himage
  have hactive : ∀ {pageDir}, Active
      (bootState initialPageDir pageDirs kernelEnd memHigh memory) [] pageDir →
      pageDir = initialPageDir :=
    fun hp => hp.resolve_right (by simp)
  have hpoints : ∀ {x table}, x < 1023 → Points
      (bootState initialPageDir pageDirs kernelEnd memHigh memory).word
        (staticFrame initialPageDir) x table → x = 768 ∧ table = 0 := by
    intro x table hx htable
    unfold Points at htable
    rw [bootState_initial himage, if_neg (by omega)] at htable
    by_cases hlarge : x = 768
    · rw [if_pos hlarge] at htable
      omega
    · rw [if_neg hlarge] at htable
      omega
  exact {
    directories := hdirs
    own := by
      intro pageDir hp
      rw [hactive hp, bootState_initial himage, if_pos rfl]
    allocated := by
      rintro frame ⟨pageDir, hp, x, hx, htable⟩
      rw [hactive hp] at htable
      rw [(hpoints hx htable).2]
      exact .inl hdirs.min_pos
    user := by
      intro pageDir hp x hx table htable
      rw [hactive hp] at htable
      have hlow : x < 1023 := by omega
      have := (hpoints hlow htable).1
      omega
    unique := by
      intro pageDir hp x hx table htable
      rw [hactive hp] at htable
      have hlow : x < 1023 := by omega
      have := (hpoints hlow htable).1
      omega }

theorem VmmRun.isolated
    (himage : KernelImage initialPageDir pageDirs kernelEnd)
    (hrun : VmmRun KeepsApart
      (bootState initialPageDir pageDirs kernelEnd memHigh memory) live vm) :
    Isolated vm live := by
  induction hrun with
  | boot => exact bootState_isolated himage
  | call hrun hactive hmay hcall ih => exact call_isolated ih hactive hmay hcall

/-- In every state that such calls reach, the directories map themselves, and
the next mapping of a user page changes that page of its directory and no other
page of any address space. -/
theorem addressSpaces_isolated
    (himage : KernelImage initialPageDir pageDirs kernelEnd)
    (hrun : VmmRun KeepsApart
      (bootState initialPageDir pageDirs kernelEnd memHigh memory) live vm) :
    (∀ pageDir ∈ live, Points vm.word (staticFrame pageDir) 1023
      (staticFrame pageDir)) ∧
    ∀ (pageDir : ℕ) (virtAddr phyAddr flags : UInt32) (next : Vm),
      Active vm live pageDir → virtAddr.toNat < kernelStart →
      KeepsApart vm live pageDir (.map virtAddr phyAddr flags) →
      memMapPage virtAddr.toNat phyAddr.toNat flags.toNat
        (memChangePageDir vm pageDir) = .ok next →
      Isolates vm next.word live pageDir virtAddr.toNat phyAddr.toNat
        flags.toNat := by
  have hisolated := VmmRun.isolated himage hrun
  constructor
  · intro pageDir hlive
    unfold Points
    rw [hisolated.own pageDir (.inr hlive)]
    exact selfEntry_points
  · intro pageDir virtAddr phyAddr flags next hactive huser hmay hok
    exact hisolated.isolates hactive huser hmay hok

end

/-- The first directory, and a page at 4 MiB in it. -/
theorem addressSpaces_isolated_firstDirectory :
    ∃ next, memMapPage 0x400000 0x800000 7 (memChangePageDir
        (addPageDir sampleBoot 1) 0xC0201000) = .ok next ∧
      Points (addPageDir sampleBoot 1).word (staticFrame 0xC0201000) 1023
        (staticFrame 0xC0201000) ∧
      Isolates (addPageDir sampleBoot 1) next.word [0xC0201000] 0xC0201000
        0x400000 0x800000 7 := by
  have hrun := sampleBoot_newPageDir KeepsApart rfl
  have hactive : Active (addPageDir sampleBoot 1) [0xC0201000] 0xC0201000 :=
    .inr (List.mem_singleton.2 rfl)
  obtain ⟨hself, hmaps⟩ := addressSpaces_isolated kernelImage_sample hrun
  obtain ⟨address, frames, halloc⟩ := sampleBoot_alloc
  obtain ⟨next, hmap⟩ := (VmmRun.isolated kernelImage_sample
    hrun).directories.map_ok hactive (by norm_num : 0x400000 < 0xFFC00000)
      halloc 0x800000 7
  have hmay : KeepsApart (addPageDir sampleBoot 1) [0xC0201000] 0xC0201000
      (.map 0x400000 0x800000 7) := by
    refine ⟨by decide, fun hkernel => absurd hkernel (by decide), ?_⟩
    intro _ _
    exact ⟨by decide, 0x301, by decide +kernel, by decide +kernel,
      by decide +kernel⟩
  exact ⟨next, hmap, hself 0xC0201000 (List.mem_singleton.2 rfl),
    hmaps 0xC0201000 0x400000 0x800000 7 next hactive (by decide) hmay hmap⟩

/-- A new directory takes the recursive mapping of every other one away. -/
theorem addPageDir_lost
    {vm : Vm} {live : List ℕ} {pageDir i : ℕ} (h : Directories vm live)
    (hlive : pageDir ∈ live) (hi : i < numPageDirs)
    (hunused : vm.pageDirsUsed i = false) :
    Points (addPageDir vm i).word (staticFrame pageDir) 1023
      (staticFrame vm.initialPageDir) :=
  ((h.claim hi hunused).sync_self hlive).congr
    (addPageDir_other (h.unused_ne hi hunused (.inr hlive)) 1023)

/-- After the second directory the first one no longer maps itself. -/
theorem firstDirectory_lost :
    ∃ vm, VmmRun (fun _ _ _ _ => True) sampleBoot [0xC0202000, 0xC0201000] vm ∧
      ¬Points vm.word (staticFrame 0xC0201000) 1023
        (staticFrame 0xC0201000) := by
  have hfirst := sampleBoot_newPageDir (fun _ _ _ _ => True) trivial
  have hunused : unusedPageDir (memChangePageDir (addPageDir sampleBoot 1)
      (addPageDir sampleBoot 1).initialPageDir) = some 2 := by decide +kernel
  have hcall : VmmCall.run (memChangePageDir (addPageDir sampleBoot 1)
      (addPageDir sampleBoot 1).initialPageDir) .newPageDir =
        .ok (0xC0202000, addPageDir (memChangePageDir (addPageDir sampleBoot 1)
          (addPageDir sampleBoot 1).initialPageDir) 2) := by
    simp only [VmmCall.run, vmmNewPageDir_some hunused]
    rfl
  have hdirs := (VmmRun.isolated kernelImage_sample
    (sampleBoot_newPageDir KeepsApart rfl)).directories
  obtain ⟨hi, hfree⟩ := unusedPageDir_spec hunused
  have hlost := addPageDir_lost (hdirs.change _)
    (List.mem_singleton.2 rfl : 0xC0201000 ∈ [0xC0201000]) hi hfree
  refine ⟨_, .call hfirst (.inl rfl) trivial hcall, ?_⟩
  intro hself
  have hsame := hself.2.symm.trans hlost.2
  revert hsame
  decide +kernel

end ClOs.Memory
