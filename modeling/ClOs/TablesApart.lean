import ClOs.Isolation

/-!
# Page tables and pages that belong to one entry

The callers of `mem_map_page` map frames that `pmm_alloc_page_frame` has just
given them.  In every state they reach a user page table belongs to one entry of
one directory, a mapped frame to one entry of one page table, and both are
allocated, whatever copies of the kernel half have been made in between.
-/

namespace ClOs.Memory

/-- A directory entry that leads to a page table and is no page of 4 MiB. -/
def TableAt (vm : Vm) (pageDir x table : ℕ) : Prop :=
  Points vm.word (staticFrame pageDir) x table ∧
    (vm.word (staticFrame pageDir) x).testBit 7 = false

/-- A frame is a page table of 4 KiB pages of an active directory. -/
def IsTable (vm : Vm) (live : List ℕ) (table : ℕ) : Prop :=
  ∃ pageDir, Active vm live pageDir ∧ ∃ x < 1023, TableAt vm pageDir x table

def Referenced (vm : Vm) (live : List ℕ) (frame : ℕ) : Prop :=
  ∃ table, IsTable vm live table ∧ ∃ j < 1024, Points vm.word table j frame

/-- A frame that `pmm_alloc_page_frame` has given and that is not used yet. -/
structure Unused (vm : Vm) (live : List ℕ) (frame : ℕ) : Prop where
  range : vm.frames.pageFrameMin ≤ frame
  allocated : vm.frames.physicalMemoryBitmap.bit frame = true
  table : ¬IsTable vm live frame
  page : ¬Referenced vm live frame

/-- A frame that `pmm_alloc_page_frame` can give. -/
def HasFree (frames : Frames) : Prop :=
  ∃ frame, frames.pageFrameMin ≤ frame ∧ frame < frames.pageFrameMax ∧
    frame < numPageFrames ∧ frames.physicalMemoryBitmap.bit frame = false

/-- A directory entry is absent or leads to a page table. -/
def NotLarge (vm : Vm) (pageDir x : ℕ) : Prop :=
  vm.word (staticFrame pageDir) x % 2 = 1 →
    (vm.word (staticFrame pageDir) x).testBit 7 = false

/-- `PAGE_FLAG_PRESENT` with any of `PAGE_FLAG_WRITE`, `PAGE_FLAG_USER` and
`PAGE_FLAG_OWNER`. -/
def PageFlags (flags : ℕ) : Prop :=
  ∃ extra ∈ [0, pageFlagWrite, pageFlagUser, pageFlagWrite ||| pageFlagUser],
    flags = pageFlagPresent ||| extra ∨
      flags = pageFlagPresent ||| extra ||| pageFlagOwner

/-- The directory in CR3 when `mem_map_page` edits a page. -/
def editedFrom (vm : Vm) (pageDir virtAddr : ℕ) : ℕ :=
  if kernelStart ≤ virtAddr then vm.initialPageDir else pageDir

/-- The calls that map frames nothing else uses, with a free frame for a page
table that is needed, outside the recursive mapping and the pages of 4 MiB. -/
def MapsUnused (vm : Vm) (live : List ℕ) (pageDir : ℕ) : VmmCall → Prop
  | .allocFrame | .newPageDir => True
  | .map virtAddr phyAddr flags => virtAddr.toNat < 0xFFC00000 ∧
      phyAddr.toNat % 0x1000 = 0 ∧ Unused vm live (phyAddr.toNat / 0x1000) ∧
      PageFlags flags.toNat ∧
      ∀ owner, Active vm live owner →
        Points vm.word (staticFrame (editedFrom vm pageDir virtAddr.toNat)) 1023
          (staticFrame owner) →
        NotLarge vm owner (virtAddr.toNat / 0x400000) ∧
          (vm.word (staticFrame owner) (virtAddr.toNat / 0x400000) % 2 = 0 →
            HasFree vm.frames)
  | .unmap virtAddr => virtAddr.toNat < 0xFFC00000 ∧
      ∀ owner, Active vm live owner →
        Points vm.word (staticFrame (editedFrom vm pageDir virtAddr.toNat)) 1023
          (staticFrame owner) →
        NotLarge vm owner (virtAddr.toNat / 0x400000)

structure Apart (vm : Vm) (live : List ℕ) : Prop where
  directories : Directories vm live
  table : ∀ table, IsTable vm live table →
    vm.frames.pageFrameMin ≤ table ∧
      vm.frames.physicalMemoryBitmap.bit table = true
  bounded : ∀ table, IsTable vm live table → ∀ j < 1024,
    vm.word table j < 4294967296
  kernel : ∀ pageDir, Active vm live pageDir → ∀ x, 768 ≤ x → x < 1023 →
    ∀ table, TableAt vm pageDir x table →
      TableAt vm vm.initialPageDir x table
  unique : ∀ pageDir, Active vm live pageDir → ∀ other, Active vm live other →
    ∀ x < 1023, ∀ y < 1023, ∀ table, TableAt vm pageDir x table →
      TableAt vm other y table → x = y ∧ (x < 768 → pageDir = other)
  page : ∀ frame, Referenced vm live frame →
    vm.frames.pageFrameMin ≤ frame ∧
      vm.frames.physicalMemoryBitmap.bit frame = true ∧
      ¬IsTable vm live frame
  pages : ∀ table, IsTable vm live table → ∀ other, IsTable vm live other →
    ∀ j < 1024, ∀ k < 1024, ∀ frame, Points vm.word table j frame →
      Points vm.word other k frame → table = other ∧ j = k

/-! ## Steps -/

section

variable {vm mid : Vm} {live : List ℕ} {pageDir owner pdIndex ptIndex : ℕ}

theorem TableAt.congr
    {x table : ℕ} (h : TableAt vm pageDir x table)
    (hsame : mid.word (staticFrame pageDir) x =
      vm.word (staticFrame pageDir) x) : TableAt mid pageDir x table := by
  unfold TableAt at h ⊢
  rw [hsame]
  exact ⟨h.1.congr hsame, h.2⟩

/-- What an edit of the page tables may do: `made` are the new entries of
directories, `mapped` the new entries of page tables. -/
structure Rewrites (vm mid : Vm) (live : List ℕ)
    (made : ℕ → ℕ → ℕ → Prop) (mapped : ℕ → ℕ → ℕ → Prop) : Prop where
  directories : Directories mid live
  statics : SameStatics vm mid
  tables : ∀ pageDir, Active vm live pageDir → ∀ x < 1023, ∀ table,
    TableAt mid pageDir x table →
      TableAt vm pageDir x table ∨ made pageDir x table
  pages : ∀ table, IsTable mid live table → ∀ j < 1024, ∀ frame,
    Points mid.word table j frame →
      (IsTable vm live table ∧ Points vm.word table j frame) ∨
        mapped table j frame
  bounded : ∀ table, IsTable mid live table → ∀ j < 1024,
    mid.word table j < 4294967296
  kernel : ∀ x, 768 ≤ x → x < 1023 → ∀ table,
    TableAt vm vm.initialPageDir x table → TableAt mid vm.initialPageDir x table
  bits : ∀ frame, IsTable mid live frame ∨ Referenced mid live frame →
    vm.frames.physicalMemoryBitmap.bit frame = true →
      mid.frames.physicalMemoryBitmap.bit frame = true

theorem SameStatics.active (h : SameStatics vm mid) :
    Active mid live pageDir ↔ Active vm live pageDir := by
  unfold Active
  rw [h.initialPageDir]

theorem Rewrites.isTable
    {made mapped : ℕ → ℕ → ℕ → Prop} (h : Rewrites vm mid live made mapped)
    {table : ℕ} (htable : IsTable mid live table) :
    IsTable vm live table ∨ ∃ pageDir x, Active vm live pageDir ∧ x < 1023 ∧
      made pageDir x table := by
  obtain ⟨pageDir, hactive, x, hx, hat⟩ := htable
  rw [h.statics.active] at hactive
  rcases h.tables pageDir hactive x hx table hat with hold | hnew
  · exact .inl ⟨pageDir, hactive, x, hx, hold⟩
  · exact .inr ⟨pageDir, x, hactive, hx, hnew⟩

/-- An edit whose new entries lead to frames that nothing else uses. -/
theorem Apart.rewrite
    (made mapped : ℕ → ℕ → ℕ → Prop) (h : Apart vm live)
    (hedit : Rewrites vm mid live made mapped)
    (hmade : ∀ pageDir x table, made pageDir x table →
      vm.frames.pageFrameMin ≤ table ∧
        mid.frames.physicalMemoryBitmap.bit table = true ∧
        ¬IsTable vm live table ∧ ¬Referenced vm live table ∧
        (768 ≤ x → TableAt mid vm.initialPageDir x table))
    (hone : ∀ pageDir x table other y, made pageDir x table →
      made other y table → x = y ∧ pageDir = other)
    (hmapped : ∀ table j frame, mapped table j frame →
      vm.frames.pageFrameMin ≤ frame ∧
        mid.frames.physicalMemoryBitmap.bit frame = true ∧
        ¬IsTable vm live frame ∧ ¬Referenced vm live frame ∧
        ∀ pageDir x, ¬made pageDir x frame)
    (hsame : ∀ table j frame other k, mapped table j frame →
      mapped other k frame → table = other ∧ j = k) :
    Apart mid live where
  directories := hedit.directories
  table table htable := by
    rw [hedit.statics.pageFrameMin]
    rcases hedit.isTable htable with hold | ⟨pageDir, x, -, -, hnew⟩
    · exact ⟨(h.table table hold).1,
        hedit.bits table (.inl htable) (h.table table hold).2⟩
    · exact ⟨(hmade _ _ _ hnew).1, (hmade _ _ _ hnew).2.1⟩
  bounded := hedit.bounded
  kernel pageDir hactive x hlow hhigh table hat := by
    rw [hedit.statics.active] at hactive
    rw [hedit.statics.initialPageDir]
    rcases hedit.tables pageDir hactive x hhigh table hat with hold | hnew
    · exact hedit.kernel x hlow hhigh table
        (h.kernel pageDir hactive x hlow hhigh table hold)
    · exact (hmade _ _ _ hnew).2.2.2.2 hlow
  unique pageDir hactive other hother x hx y hy table hat hat' := by
    rw [hedit.statics.active] at hactive hother
    rcases hedit.tables pageDir hactive x hx table hat with hold | hnew
    · rcases hedit.tables other hother y hy table hat' with hold' | hnew'
      · exact h.unique pageDir hactive other hother x hx y hy table hold hold'
      · exact absurd ⟨pageDir, hactive, x, hx, hold⟩ (hmade _ _ _ hnew').2.2.1
    · rcases hedit.tables other hother y hy table hat' with hold' | hnew'
      · exact absurd ⟨other, hother, y, hy, hold'⟩ (hmade _ _ _ hnew).2.2.1
      · obtain ⟨hxy, hdirs⟩ := hone _ _ _ _ _ hnew hnew'
        exact ⟨hxy, fun _ => hdirs⟩
  page frame hreferenced := by
    rw [hedit.statics.pageFrameMin]
    obtain ⟨table, htable, j, hj, hpoints⟩ := hreferenced
    rcases hedit.pages table htable j hj frame hpoints with
      ⟨hold, hpage⟩ | hnew
    · have hreferenced : Referenced vm live frame := ⟨table, hold, j, hj, hpage⟩
      obtain ⟨hrange, hbit, hnot⟩ := h.page frame hreferenced
      refine ⟨hrange, hedit.bits frame (.inr ⟨table, htable, j, hj, hpoints⟩)
        hbit, fun hframe => ?_⟩
      rcases hedit.isTable hframe with hframe | ⟨pageDir, x, -, -, hnew⟩
      · exact hnot hframe
      · exact (hmade _ _ _ hnew).2.2.2.1 hreferenced
    · obtain ⟨hrange, hbit, hnot, -, hother⟩ := hmapped _ _ _ hnew
      refine ⟨hrange, hbit, fun hframe => ?_⟩
      rcases hedit.isTable hframe with hframe | ⟨pageDir, x, -, -, hnew⟩
      · exact hnot hframe
      · exact hother pageDir x hnew
  pages table htable other hother j hj k hk frame hpoints hpoints' := by
    rcases hedit.pages table htable j hj frame hpoints with
      ⟨hold, hpage⟩ | hnew
    · rcases hedit.pages other hother k hk frame hpoints' with
        ⟨hold', hpage'⟩ | hnew'
      · exact h.pages table hold other hold' j hj k hk frame hpage hpage'
      · exact absurd ⟨table, hold, j, hj, hpage⟩
          (hmapped _ _ _ hnew').2.2.2.1
    · rcases hedit.pages other hother k hk frame hpoints' with
        ⟨hold', hpage'⟩ | hnew'
      · exact absurd ⟨other, hold', k, hk, hpage'⟩ (hmapped _ _ _ hnew).2.2.2.1
      · exact hsame _ _ _ _ _ hnew hnew'

theorem IsTable.ne_dir
    (hdirs : Directories vm live) {table : ℕ} (htable : IsTable vm live table)
    (hactive : Active vm live pageDir) : table ≠ staticFrame pageDir := by
  obtain ⟨owner, howner, x, hx, hat⟩ := htable
  exact hdirs.table_ne howner hx hat.1 hactive

/-- The rows of the directories that an edit leaves alone. -/
theorem EditsDir.tableAt
    (hdirs : Directories vm live)
    (hedit : EditsDir vm mid (staticFrame owner) pdIndex)
    (howner : Active vm live owner) (hactive : Active vm live pageDir)
    {x : ℕ} (hother : ¬(pageDir = owner ∧ x = pdIndex)) :
    mid.word (staticFrame pageDir) x = vm.word (staticFrame pageDir) x := by
  refine hedit.rows _ (hdirs.dirFrame hactive) x ?_
  rintro ⟨hframe, hx⟩
  exact hother ⟨hdirs.frame_injective howner hactive hframe, hx⟩

/-- A page of a page table that is there. -/
theorem Apart.map_present
    (h : Apart vm live) (howner : Active vm live owner)
    (hpd : pdIndex < 1023) {target count entry : ℕ} (flags : ℕ)
    (htable : TableAt vm owner pdIndex target)
    (hentry : entry < 4294967296) (hunused : Unused vm live (entry / 0x1000))
    (hmid : mid = { vm with
      word := setAt vm.word target ptIndex entry
      memNumVpages := count }) : Apart mid live := by
  have hmaps : MapsIn vm (staticFrame owner) pdIndex ptIndex (flags &&& 0x3FF)
      entry mid := by
    rw [hmid]
    exact .present htable.1
  have hedit := h.directories.map_edits howner hpd hmaps
  have htarget : IsTable vm live target :=
    ⟨owner, howner, pdIndex, hpd, htable⟩
  have hrow : ∀ P, Active vm live P → ∀ x,
      mid.word (staticFrame P) x = vm.word (staticFrame P) x := by
    intro P hP x
    rw [hmid]
    exact setAt_of_ne _ _ (.inl (htarget.ne_dir h.directories hP).symm)
  have hold : ∀ {t}, IsTable mid live t → IsTable vm live t := by
    rintro t ⟨P, hP, x, hx, hat⟩
    rw [hedit.statics.active] at hP
    exact ⟨P, hP, x, hx, hat.congr (hrow P hP x).symm⟩
  have hword : ∀ t j, ¬(t = target ∧ j = ptIndex) →
      mid.word t j = vm.word t j := by
    intro t j hne
    rw [hmid]
    refine setAt_of_ne _ _ ?_
    by_cases ht : t = target
    · exact .inr fun hj => hne ⟨ht, hj⟩
    · exact .inl ht
  have hset : mid.word target ptIndex = entry := by
    rw [hmid]
    exact setAt_same _ _ _ _
  refine h.rewrite (fun _ _ _ => False)
    (fun t j f => t = target ∧ j = ptIndex ∧ f = entry / 0x1000) {
      directories := h.directories.edit hedit hpd
      statics := hedit.statics
      tables := fun P hP x _ t hat => .inl (hat.congr (hrow P hP x).symm)
      pages := ?_
      bounded := ?_
      kernel := fun x _ _ t hat => hat.congr (hrow _ (.inl rfl) x)
      bits := ?_ } ?_ ?_ ?_ ?_
  · intro t ht j _ f hpoints
    by_cases hcell : t = target ∧ j = ptIndex
    · obtain ⟨rfl, rfl⟩ := hcell
      have hframe := hpoints.2
      rw [hset] at hframe
      exact .inr ⟨rfl, rfl, hframe.symm⟩
    · exact .inl ⟨hold ht, hpoints.congr (hword t j hcell).symm⟩
  · intro t ht j hj
    by_cases hcell : t = target ∧ j = ptIndex
    · rw [hcell.1, hcell.2, hset]
      exact hentry
    · rw [hword t j hcell]
      exact h.bounded t (hold ht) j hj
  · intro f _ hbit
    rw [hmid]
    exact hbit
  · exact fun _ _ _ hfalse => hfalse.elim
  · exact fun _ _ _ _ _ hfalse => hfalse.elim
  · rintro t j f ⟨-, -, rfl⟩
    refine ⟨hunused.range, ?_, hunused.table, hunused.page, fun _ _ => id⟩
    rw [hmid]
    exact hunused.allocated
  · rintro t j f other k ⟨rfl, rfl, -⟩ ⟨rfl, rfl, -⟩
    exact ⟨rfl, rfl⟩

structure NewTable (vm mid : Vm) (owner pdIndex ptIndex address flags entry : ℕ) :
    Prop where
  directory : mid.word (staticFrame owner) pdIndex = tableEntry address flags
  page : mid.word (address / 0x1000) ptIndex = entry
  zero : ∀ j < 1024, j ≠ ptIndex → mid.word (address / 0x1000) j = 0
  others : ∀ g ≠ address / 0x1000, ∀ j,
    ¬(g = staticFrame owner ∧ j = pdIndex) → mid.word g j = vm.word g j

theorem newTable_words
    {address flags entry : ℕ} (hframe : address / 0x1000 ≠ staticFrame owner)
    (hword : mid.word = setAt (newTable vm.word (staticFrame owner) pdIndex
      address flags) (address / 0x1000) ptIndex entry) :
    NewTable vm mid owner pdIndex ptIndex address flags entry where
  directory := by
    rw [hword, setAt_of_ne _ _ (.inl hframe.symm), newTable,
      clearTable_of_ne _ _ hframe.symm, setAt_same]
  page := by
    rw [hword, setAt_same]
  zero j hj hne := by
    rw [hword, setAt_of_ne _ _ (.inr hne), newTable, clearTable_same _ _ hj]
  others g hg j hother := by
    rw [hword, setAt_of_ne _ _ (.inl hg), newTable, clearTable_of_ne _ _ hg]
    refine setAt_of_ne _ _ ?_
    by_cases hsame : g = staticFrame owner
    · exact .inr fun hj => hother ⟨hsame, hj⟩
    · exact .inl hsame

theorem Apart.map_absent
    (h : Apart vm live) (howner : Active vm live owner)
    (hpd : pdIndex < 1023) (hkernel : 768 ≤ pdIndex → owner = vm.initialPageDir)
    {address count flags entry : ℕ} {frames : Frames}
    (habsent : vm.word (staticFrame owner) pdIndex % 2 = 0)
    (halloc : pmmAllocPageFrame vm.frames = .ok (address, frames))
    (hzero : address ≠ 0) (hflags : flags.testBit 7 = false)
    (hentry : entry < 4294967296) (hunused : Unused vm live (entry / 0x1000))
    (hmid : mid = { vm with
      frames := frames
      word := setAt (newTable vm.word (staticFrame owner) pdIndex address
        (flags &&& 0x3FF)) (address / 0x1000) ptIndex entry
      memNumVpages := count }) : Apart mid live := by
  have hedit : EditsDir vm mid (staticFrame owner) pdIndex := by
    rw [hmid]
    exact h.directories.map_edits howner hpd (.absent habsent halloc)
  obtain ⟨haligned, hrange, hclear, hset⟩ :=
    (pmmAllocPageFrame_taken halloc).resolve_left hzero
  have hnotTable : ¬IsTable vm live (address / 0x1000) := by
    intro htable
    rw [(h.table _ htable).2] at hclear
    cases hclear
  have hnotPage : ¬Referenced vm live (address / 0x1000) := by
    intro hpage
    rw [(h.page _ hpage).2.1] at hclear
    cases hclear
  have hword : mid.word = setAt (newTable vm.word (staticFrame owner) pdIndex
      address (flags &&& 0x3FF)) (address / 0x1000) ptIndex entry := by
    rw [hmid]
  have hwords := newTable_words (h.directories.fresh howner halloc) hword
  have hlt := Nat.and_lt_two_pow flags (by norm_num : 0x3FF < 2 ^ 10)
  have hnew : TableAt mid owner pdIndex (address / 0x1000) := by
    unfold TableAt Points
    rw [hwords.directory]
    exact ⟨tableEntry_spec address hlt, tableEntry_small haligned hflags⟩
  have hrow : ∀ {P x t}, Active vm live P → TableAt mid P x t →
      TableAt vm P x t ∨ (P = owner ∧ x = pdIndex ∧ t = address / 0x1000) := by
    intro P x t hP hat
    by_cases hcell : P = owner ∧ x = pdIndex
    · obtain ⟨rfl, rfl⟩ := hcell
      exact .inr ⟨rfl, rfl, hat.1.2.symm.trans hnew.1.2⟩
    · exact .inl (hat.congr
        (hedit.tableAt h.directories howner hP hcell).symm)
  have hold : ∀ {t}, IsTable mid live t → t ≠ address / 0x1000 →
      IsTable vm live t := by
    rintro t ⟨P, hP, x, hx, hat⟩ hne
    rw [hedit.statics.active] at hP
    rcases hrow hP hat with hat | ⟨-, -, heq⟩
    · exact ⟨P, hP, x, hx, hat⟩
    · exact absurd heq hne
  have hbit : frames.physicalMemoryBitmap.bit (entry / 0x1000) = true :=
    pmmAllocPageFrame_bit halloc hunused.allocated
  refine h.rewrite
    (fun P x t => P = owner ∧ x = pdIndex ∧ t = address / 0x1000)
    (fun t j f => t = address / 0x1000 ∧ j = ptIndex ∧
      f = entry / 0x1000) {
      directories := h.directories.edit hedit hpd
      statics := hedit.statics
      tables := fun P hP x _ t hat => hrow hP hat
      pages := ?_
      bounded := ?_
      kernel := ?_
      bits := ?_ } ?_ ?_ ?_ ?_
  · intro t ht j hj f hpoints
    by_cases hta : t = address / 0x1000
    · subst hta
      by_cases hjp : j = ptIndex
      · subst hjp
        have hframe := hpoints.2
        rw [hwords.page] at hframe
        exact .inr ⟨rfl, rfl, hframe.symm⟩
      · have hpresent := hpoints.1
        rw [hwords.zero j hj hjp] at hpresent
        cases hpresent
    · have htable := hold ht hta
      have hne := htable.ne_dir h.directories howner
      exact .inl ⟨htable, hpoints.congr
        (hwords.others t hta j fun hcell => hne hcell.1).symm⟩
  · intro t ht j hj
    by_cases hta : t = address / 0x1000
    · subst hta
      by_cases hjp : j = ptIndex
      · rw [hjp, hwords.page]
        exact hentry
      · rw [hwords.zero j hj hjp]
        norm_num
    · have htable := hold ht hta
      have hne := htable.ne_dir h.directories howner
      rw [hwords.others t hta j fun hcell => hne hcell.1]
      exact h.bounded t htable j hj
  · intro x _ _ t hat
    by_cases hcell : vm.initialPageDir = owner ∧ x = pdIndex
    · obtain ⟨rfl, rfl⟩ := hcell
      have hpresent := hat.1.1
      omega
    · exact hat.congr
        (hedit.tableAt h.directories howner (.inl rfl) hcell)
  · intro f _ hbit
    rw [hmid]
    exact pmmAllocPageFrame_bit halloc hbit
  · rintro P x t ⟨rfl, rfl, rfl⟩
    refine ⟨hrange, ?_, hnotTable, hnotPage, fun hlow => ?_⟩
    · rw [hmid]
      exact hset
    · rw [← hkernel hlow]
      exact hnew
  · rintro P x t Q y ⟨rfl, rfl, -⟩ ⟨rfl, rfl, -⟩
    exact ⟨rfl, rfl⟩
  · rintro t j f ⟨-, -, rfl⟩
    refine ⟨hunused.range, ?_, hunused.table, hunused.page, ?_⟩
    · rw [hmid]
      exact hbit
    · rintro P x ⟨-, -, heq⟩
      have halready := hunused.allocated
      rw [heq, hclear] at halready
      cases halready
  · rintro t j f other k ⟨rfl, rfl, -⟩ ⟨rfl, rfl, -⟩
    exact ⟨rfl, rfl⟩

theorem frame_of_entry
    {entry : ℕ} (h : entry < 4294967296) :
    (entry &&& pageFlagFrame) / 0x1000 = entry / 0x1000 := by
  rw [and_pageFlagFrame h]
  omega

theorem freePage_bit
    {freed : Vm} {entry frame : ℕ} (hentry : entry < 4294967296)
    (hfree : freePage entry vm = .ok freed) (hne : frame ≠ entry / 0x1000)
    (hset : vm.frames.physicalMemoryBitmap.bit frame = true) :
    freed.frames.physicalMemoryBitmap.bit frame = true := by
  rcases freePage_frames hfree with hsame | hfreed
  · rw [hsame]
    exact hset
  · refine pmmFreePageFrame_bit hfreed (fun hframe => ?_) hset
    rw [frame_of_entry hentry] at hframe
    exact absurd hframe hne

structure Clears (vm mid : Vm) (live : List ℕ) (target ptIndex : ℕ) : Prop where
  directories : Directories mid live
  statics : SameStatics vm mid
  tables : ∀ pageDir, Active vm live pageDir → ∀ x < 1023, ∀ table,
    TableAt mid pageDir x table → TableAt vm pageDir x table
  kernel : ∀ x, 768 ≤ x → x < 1023 → ∀ table,
    TableAt vm vm.initialPageDir x table → TableAt mid vm.initialPageDir x table
  words : ∀ table, IsTable mid live table → ∀ j,
    ¬(table = target ∧ j = ptIndex) → mid.word table j = vm.word table j
  zero : mid.word target ptIndex = 0

theorem Clears.isTable
    {target table : ℕ} (h : Clears vm mid live target ptIndex)
    (htable : IsTable mid live table) : IsTable vm live table := by
  obtain ⟨pageDir, hactive, x, hx, hat⟩ := htable
  rw [h.statics.active] at hactive
  exact ⟨pageDir, hactive, x, hx, h.tables pageDir hactive x hx table hat⟩

theorem Clears.points
    {target table j frame : ℕ} (h : Clears vm mid live target ptIndex)
    (htable : IsTable mid live table)
    (hpoints : Points mid.word table j frame) :
    ¬(table = target ∧ j = ptIndex) ∧ Points vm.word table j frame := by
  have hcell : ¬(table = target ∧ j = ptIndex) := by
    rintro ⟨rfl, rfl⟩
    have hpresent := hpoints.1
    rw [h.zero] at hpresent
    cases hpresent
  exact ⟨hcell, hpoints.congr (h.words table htable j hcell).symm⟩

/-- The frame of the page is no longer used. -/
theorem Apart.cleared_ne
    (h : Apart vm live) {target frame : ℕ} (hpt : ptIndex < 1024)
    (hclears : Clears vm mid live target ptIndex)
    (htarget : IsTable vm live target)
    (hpage : vm.word target ptIndex % 2 = 1)
    (hused : IsTable mid live frame ∨ Referenced mid live frame) :
    frame ≠ vm.word target ptIndex / 0x1000 := by
  rintro rfl
  have hpoints : Points vm.word target ptIndex
      (vm.word target ptIndex / 0x1000) := ⟨hpage, rfl⟩
  rcases hused with htable | ⟨table, htable, j, hj, hother⟩
  · exact (h.page _ ⟨target, htarget, ptIndex, hpt, hpoints⟩).2.2
      (hclears.isTable htable)
  · obtain ⟨hcell, hold⟩ := hclears.points htable hother
    exact hcell (h.pages table (hclears.isTable htable) target htarget j hj
      ptIndex hpt _ hold hpoints)

theorem Apart.clear
    (h : Apart vm live) {target : ℕ}
    (hclears : Clears vm mid live target ptIndex)
    (hbits : ∀ frame, IsTable mid live frame ∨ Referenced mid live frame →
      vm.frames.physicalMemoryBitmap.bit frame = true →
        mid.frames.physicalMemoryBitmap.bit frame = true) :
    Apart mid live := by
  refine h.rewrite (fun _ _ _ => False) (fun _ _ _ => False) {
      directories := hclears.directories
      statics := hclears.statics
      tables := fun P hP x hx t hat => .inl (hclears.tables P hP x hx t hat)
      pages := fun t ht j _ f hpoints =>
        .inl ⟨hclears.isTable ht, (hclears.points ht hpoints).2⟩
      bounded := ?_
      kernel := hclears.kernel
      bits := hbits } ?_ ?_ ?_ ?_
  · intro t ht j hj
    by_cases hcell : t = target ∧ j = ptIndex
    · rw [hcell.1, hcell.2, hclears.zero]
      norm_num
    · rw [hclears.words t ht j hcell]
      exact h.bounded t (hclears.isTable ht) j hj
  · exact fun _ _ _ hfalse => hfalse.elim
  · exact fun _ _ _ _ _ hfalse => hfalse.elim
  · exact fun _ _ _ hfalse => hfalse.elim
  · exact fun _ _ _ _ _ hfalse => hfalse.elim

/-- A page is taken out of its page table. -/
theorem Apart.unmap
    (h : Apart vm live) (howner : Active vm live owner)
    (hpd : pdIndex < 1023) (hpt : ptIndex < 1024) {user : Prop}
    (huserHalf : user → pdIndex < 768) (hlarge : NotLarge vm owner pdIndex)
    (hunmaps : UnmapsIn vm (staticFrame owner) pdIndex ptIndex user mid) :
    Apart mid live := by
  have hedit := h.directories.unmap_edits howner hpd hunmaps
  have hdirs := h.directories.edit hedit hpd
  cases hunmaps with
  | none hnone => exact h
  | @page target count freed htable hpage hfree =>
      have htarget : IsTable vm live target :=
        ⟨owner, howner, pdIndex, hpd, htable, hlarge htable.1⟩
      have hrow : ∀ P, Active vm live P → ∀ x,
          setAt vm.word target ptIndex 0 (staticFrame P) x =
            vm.word (staticFrame P) x :=
        fun P hP x =>
          setAt_of_ne _ _ (.inl (htarget.ne_dir h.directories hP).symm)
      have hclears : Clears vm { vm with
          frames := freed.frames
          word := setAt vm.word target ptIndex 0
          memNumVpages := count } live target ptIndex := {
        directories := hdirs
        statics := hedit.statics
        tables := fun P hP x _ t hat => hat.congr (hrow P hP x).symm
        kernel := fun x _ _ t hat => hat.congr (hrow _ (.inl rfl) x)
        words := fun t _ j hcell => setAt_of_ne _ _ (by omega)
        zero := setAt_same _ _ _ _ }
      refine h.clear hclears fun f hused hbit => ?_
      have hfreed := freePage_bit (h.bounded _ htarget _ hpt) hfree
        (h.cleared_ne hpt hclears htarget hpage hused) hbit
      exact hfreed
  | @table target count freed frames huser htable hpage hfree hempty hdrop =>
      have hat : TableAt vm owner pdIndex target :=
        ⟨htable, hlarge htable.1⟩
      have htarget : IsTable vm live target := ⟨owner, howner, pdIndex, hpd, hat⟩
      have hdir := htarget.ne_dir h.directories howner
      have hcleared : setAt (setAt vm.word target ptIndex 0)
          (staticFrame owner) pdIndex 0 (staticFrame owner) pdIndex = 0 :=
        setAt_same _ _ _ _
      have hrow : ∀ {P x t}, Active vm live P → TableAt { vm with
          frames := frames
          word := setAt (setAt vm.word target ptIndex 0) (staticFrame owner)
            pdIndex 0
          memNumVpages := count } P x t →
          ¬(P = owner ∧ x = pdIndex) ∧ TableAt vm P x t := by
        intro P x t hP hat
        have hcell : ¬(P = owner ∧ x = pdIndex) := by
          rintro ⟨rfl, rfl⟩
          have hpresent := hat.1.1
          simp only [hcleared] at hpresent
          cases hpresent
        exact ⟨hcell, hat.congr
          (hedit.tableAt h.directories howner hP hcell).symm⟩
      have hclears : Clears vm { vm with
          frames := frames
          word := setAt (setAt vm.word target ptIndex 0) (staticFrame owner)
            pdIndex 0
          memNumVpages := count } live target ptIndex := {
        directories := hdirs
        statics := hedit.statics
        tables := fun P hP x _ t hat => (hrow hP hat).2
        kernel := by
          intro x hlow _ t hat
          refine hat.congr (hedit.tableAt h.directories howner (.inl rfl) ?_)
          rintro ⟨-, rfl⟩
          have := huserHalf huser
          omega
        words := by
          rintro t ⟨P, hP, x, hx, hat⟩ j hcell
          have hne : t ≠ staticFrame owner :=
            IsTable.ne_dir h.directories ⟨P, hP, x, hx, (hrow hP hat).2⟩ howner
          exact (setAt_of_ne _ _ (.inl hne)).trans (setAt_of_ne _ _ (by omega))
        zero := (setAt_of_ne _ _ (.inl hdir)).trans (setAt_same _ _ _ _) }
      have hgone : ∀ {f}, IsTable { vm with
          frames := frames
          word := setAt (setAt vm.word target ptIndex 0) (staticFrame owner)
            pdIndex 0
          memNumVpages := count } live f ∨ Referenced { vm with
          frames := frames
          word := setAt (setAt vm.word target ptIndex 0) (staticFrame owner)
            pdIndex 0
          memNumVpages := count } live f → f ≠ target := by
        rintro f (⟨P, hP, x, hx, hnew⟩ | ⟨t, ht, j, hj, hpoints⟩) rfl
        · obtain ⟨hcell, hold⟩ := hrow hP hnew
          obtain ⟨rfl, hsame⟩ := h.unique owner howner P hP pdIndex hpd x hx f
            hat hold
          exact hcell ⟨(hsame (huserHalf huser)).symm, rfl⟩
        · exact (h.page f ⟨t, hclears.isTable ht, j, hj,
            (hclears.points ht hpoints).2⟩).2.2 htarget
      refine h.clear hclears fun f hused hbit => ?_
      have hfreed := freePage_bit (h.bounded _ htarget _ hpt) hfree
        (h.cleared_ne hpt hclears htarget hpage hused) hbit
      refine pmmFreePageFrame_bit hdrop (fun hframe => ?_) hfreed
      rw [frame_of_entry (h.directories.bounded owner howner pdIndex),
        htable.2] at hframe
      exact absurd hframe (hgone hused)

/-! ## Calls -/

theorem Apart.change (h : Apart vm live) (pageDir : ℕ) :
    Apart (memChangePageDir vm pageDir) live :=
  ⟨h.directories.change pageDir, h.table, h.bounded, h.kernel, h.unique, h.page,
    h.pages⟩

theorem Unused.change
    {frame : ℕ} (h : Unused vm live frame) (pageDir : ℕ) :
    Unused (memChangePageDir vm pageDir) live frame :=
  ⟨h.range, h.allocated, h.table, h.page⟩

theorem Apart.alloc (h : Apart vm live)
    {address : ℕ} {frames : Frames}
    (halloc : pmmAllocPageFrame vm.frames = .ok (address, frames)) :
    Apart { vm with frames := frames } live where
  directories := h.directories.alloc halloc
  table table htable := by
    rw [(pmmAllocPageFrame_cases halloc).1]
    exact ⟨(h.table table htable).1,
      pmmAllocPageFrame_bit halloc (h.table table htable).2⟩
  bounded := h.bounded
  kernel := h.kernel
  unique := h.unique
  page frame hpage := by
    rw [(pmmAllocPageFrame_cases halloc).1]
    obtain ⟨hrange, hbit, hnot⟩ := h.page frame hpage
    exact ⟨hrange, pmmAllocPageFrame_bit halloc hbit, hnot⟩
  pages := h.pages

theorem withoutOwner_small
    (entry : ℕ) : (withoutOwner entry).testBit 7 = entry.testBit 7 := by
  unfold withoutOwner
  rw [Nat.testBit_and]
  have hmask : (0xFFFFFFFF - pageFlagOwner).testBit 7 = true := by decide
  rw [hmask, Bool.and_true]

theorem TableAt.of_withoutOwner
    {other x table : ℕ}
    (hsource : vm.word (staticFrame pageDir) x < 4294967296)
    (hcopy : mid.word (staticFrame other) x =
      withoutOwner (vm.word (staticFrame pageDir) x))
    (h : TableAt mid other x table) : TableAt vm pageDir x table := by
  refine ⟨h.1.of_withoutOwner hsource hcopy, ?_⟩
  have hsmall := h.2
  rwa [hcopy, withoutOwner_small] at hsmall

/-- Directories whose entries are those of before or copies of the kernel half
of `initial_page_dir` have no page tables more. -/
theorem Apart.copies
    {after : List ℕ} (h : Apart vm live) (hdirs : Directories mid after)
    (hstatics : SameStatics vm mid) (hframes : mid.frames = vm.frames)
    (hinitial : ∀ x < 1023, mid.word (staticFrame vm.initialPageDir) x =
      vm.word (staticFrame vm.initialPageDir) x)
    (hrows : ∀ pageDir, Active mid after pageDir → ∀ x < 1023, ∀ table,
      TableAt mid pageDir x table →
        (Active vm live pageDir ∧ TableAt vm pageDir x table) ∨
          768 ≤ x ∧ TableAt vm vm.initialPageDir x table)
    (htables : ∀ table, IsTable vm live table → ∀ j,
      mid.word table j = vm.word table j) : Apart mid after := by
  have hold : ∀ {t}, IsTable mid after t → IsTable vm live t := by
    rintro t ⟨P, hP, x, hx, hat⟩
    rcases hrows P hP x hx t hat with ⟨hactive, hrow⟩ | ⟨-, hcopy⟩
    · exact ⟨P, hactive, x, hx, hrow⟩
    · exact ⟨_, .inl rfl, x, hx, hcopy⟩
  have hpage : ∀ {t j f}, IsTable mid after t → Points mid.word t j f →
      Points vm.word t j f :=
    fun ht hpoints => hpoints.congr (htables _ (hold ht) _).symm
  have hkernel : ∀ {P x t}, Active mid after P → 768 ≤ x → x < 1023 →
      TableAt mid P x t → TableAt vm vm.initialPageDir x t := by
    intro P x t hP hlow hhigh hat
    rcases hrows P hP x hhigh t hat with ⟨hactive, hrow⟩ | ⟨-, hcopy⟩
    · exact h.kernel P hactive x hlow hhigh t hrow
    · exact hcopy
  exact {
    directories := hdirs
    table := by
      intro t ht
      rw [hframes]
      exact h.table t (hold ht)
    bounded := by
      intro t ht j hj
      rw [htables t (hold ht) j]
      exact h.bounded t (hold ht) j hj
    kernel := by
      intro P hP x hlow hhigh t hat
      rw [hstatics.initialPageDir]
      exact (hkernel hP hlow hhigh hat).congr (hinitial x hhigh)
    unique := by
      intro P hP Q hQ x hx y hy t hat hat'
      rcases hrows P hP x hx t hat with ⟨hPold, hrow⟩ | ⟨hxlow, hcopy⟩
      · rcases hrows Q hQ y hy t hat' with ⟨hQold, hrow'⟩ | ⟨hylow, hcopy'⟩
        · exact h.unique P hPold Q hQold x hx y hy t hrow hrow'
        · have hxy := (h.unique P hPold _ (.inl rfl) x hx y hy t hrow
            hcopy').1
          exact ⟨hxy, fun hlt => by omega⟩
      · rcases hrows Q hQ y hy t hat' with ⟨hQold, hrow'⟩ | ⟨hylow, hcopy'⟩
        · have hxy := (h.unique _ (.inl rfl) Q hQold x hx y hy t hcopy
            hrow').1
          exact ⟨hxy, fun hlt => by omega⟩
        · have hxy := (h.unique _ (.inl rfl) _ (.inl rfl) x hx y hy t hcopy
            hcopy').1
          exact ⟨hxy, fun hlt => by omega⟩
    page := by
      rintro f ⟨t, ht, j, hj, hpoints⟩
      rw [hframes]
      obtain ⟨hrange, hbit, hnot⟩ :=
        h.page f ⟨t, hold ht, j, hj, hpage ht hpoints⟩
      exact ⟨hrange, hbit, fun htable => hnot (hold htable)⟩
    pages := fun t ht t' ht' j hj k hk f hpoints hpoints' =>
      h.pages t (hold ht) t' (hold ht') j hj k hk f (hpage ht hpoints)
        (hpage ht' hpoints') }

theorem syncPageDirs_table
    (hdirs : Directories vm live) {table : ℕ} (htable : IsTable vm live table)
    (j : ℕ) : (syncPageDirs vm).word table j = vm.word table j := by
  simp only [syncPageDirs]
  rw [if_neg]
  rintro ⟨-, -, i, hi, -, hframe⟩
  obtain ⟨owner, howner, x, hx, hat⟩ := htable
  exact hdirs.tables owner howner x hx table hat.1
    ⟨_, .inr ⟨i, hi, rfl⟩, hframe⟩

theorem syncPageDirs_row
    (hdirs : Directories vm live) (hactive : Active vm live pageDir)
    {x table : ℕ} (hx : x < 1023)
    (hat : TableAt (syncPageDirs vm) pageDir x table) :
    TableAt vm pageDir x table ∨
      768 ≤ x ∧ TableAt vm vm.initialPageDir x table := by
  rcases Nat.lt_or_ge x 768 with huser | hkernel
  · exact .inl (hat.congr (syncPageDirs_user vm _ huser).symm)
  · rcases hactive with rfl | hlive
    · exact .inl (hat.congr (syncPageDirs_initial hdirs.layout x).symm)
    · obtain ⟨i, hi, hused, rfl⟩ := hdirs.slot pageDir hlive
      exact .inr ⟨hkernel, hat.of_withoutOwner (hdirs.bounded _ (.inl rfl) x)
        (syncPageDirs_slot vm hi hused hkernel (by omega))⟩

theorem Apart.sync (h : Apart vm live) : Apart (syncPageDirs vm) live := by
  refine h.copies h.directories.sync ⟨rfl, rfl, rfl⟩ rfl
    (fun x _ => syncPageDirs_initial h.directories.layout x) ?_
    fun t ht j => syncPageDirs_table h.directories ht j
  intro P hP x hx t hat
  exact (syncPageDirs_row h.directories hP hx hat).imp_left fun hrow => ⟨hP, hrow⟩

theorem Apart.leave (h : Apart vm live) (pageDir : ℕ) :
    Apart (leaveKernelHalf pageDir vm) live := by
  unfold leaveKernelHalf
  split_ifs
  · exact h.sync.change pageDir
  · exact h

/-- Clearing a directory that is not in use changes no other word. -/
theorem claimPageDir_word
    {i frame : ℕ} (hframe : frame ≠ staticFrame (vm.pageDirs i)) (x : ℕ) :
    (claimPageDir vm i).word frame x = vm.word frame x := by
  simp [claimPageDir, hframe]

theorem Apart.newPageDir
    {i : ℕ} (h : Apart vm live) (hi : i < numPageDirs)
    (hunused : vm.pageDirsUsed i = false) :
    Apart (addPageDir vm i) (vm.pageDirs i :: live) := by
  have hdirs := h.directories
  have hclaim := hdirs.claim hi hunused
  have hrows : ∀ P, Active vm live P → ∀ x,
      (claimPageDir vm i).word (staticFrame P) x = vm.word (staticFrame P) x :=
    fun P hP x => claimPageDir_word (hdirs.unused_ne hi hunused hP) x
  refine h.copies (hdirs.newPageDir hi hunused) ⟨rfl, rfl, rfl⟩ rfl
    (fun x _ => addPageDir_initial hdirs.layout hi x) ?_ ?_
  · intro P hP x hx t hat
    have hcases : P = vm.pageDirs i ∨ Active vm live P := by
      rcases hP with rfl | hlive
      · exact .inr (.inl rfl)
      · rcases List.mem_cons.1 hlive with rfl | hlive
        · exact .inl rfl
        · exact .inr (.inr hlive)
    rcases hcases with rfl | hactive
    · right
      obtain ⟨hlow, -⟩ := addPageDir_points hdirs hi hx hat.1
      have hcopy := addPageDir_row hdirs.layout hi x
      rw [if_neg (by omega), if_pos ⟨hlow, by omega⟩] at hcopy
      exact ⟨hlow, hat.of_withoutOwner (hdirs.bounded _ (.inl rfl) x) hcopy⟩
    · have hsync : TableAt (syncPageDirs (claimPageDir vm i)) P x t :=
        hat.congr
          (addPageDir_other (hdirs.unused_ne hi hunused hactive) x).symm
      rcases syncPageDirs_row hclaim hactive hx hsync with hrow | ⟨hlow, hcopy⟩
      · exact .inl ⟨hactive, hrow.congr (hrows P hactive x).symm⟩
      · exact .inr ⟨hlow, hcopy.congr (hrows _ (.inl rfl) x).symm⟩
  · intro t ht j
    have hne : t ≠ staticFrame (vm.pageDirs i) := by
      obtain ⟨owner, howner, x, hx, hat⟩ := ht
      rintro rfl
      exact hdirs.tables owner howner x hx _ hat.1
        ⟨_, .inr ⟨i, hi, rfl⟩, rfl⟩
    have hclaimed : IsTable (claimPageDir vm i) live t := by
      obtain ⟨owner, howner, x, hx, hat⟩ := ht
      exact ⟨owner, howner, x, hx, hat.congr (hrows owner howner x)⟩
    rw [addPageDir_other hne, syncPageDirs_table hclaim hclaimed,
      claimPageDir_word hne]

theorem PageFlags.spec
    {flags : ℕ} (h : PageFlags flags) :
    flags &&& 0x3FF = flags ∧ flags.testBit 7 = false ∧ flags % 2 = 1 ∧
      flags < 0x400 := by
  obtain ⟨extra, hextra, hflags⟩ := h
  simp only [List.mem_cons, List.not_mem_nil, or_false] at hextra
  rcases hextra with rfl | rfl | rfl | rfl <;>
    rcases hflags with rfl | rfl <;> decide

theorem pageEntry_spec
    {phyAddr flags : ℕ} (hphy : phyAddr < 4294967296)
    (haligned : phyAddr % 0x1000 = 0) (hflags : PageFlags flags) :
    ((phyAddr &&& pageFlagFrame) ||| (flags &&& 0x3FF)) < 4294967296 ∧
      ((phyAddr &&& pageFlagFrame) ||| (flags &&& 0x3FF)) / 0x1000 =
        phyAddr / 0x1000 ∧
      ((phyAddr &&& pageFlagFrame) ||| (flags &&& 0x3FF)) % 0x1000 = flags := by
  obtain ⟨hmask, -, -, hlt⟩ := hflags.spec
  have hframe : phyAddr &&& pageFlagFrame = phyAddr := by
    rw [and_pageFlagFrame hphy]
    omega
  rw [hmask, hframe]
  have hsum : phyAddr ||| flags = phyAddr + flags := by
    have hsplit : phyAddr = 2 ^ 12 * (phyAddr / 0x1000) := by omega
    rw [hsplit, ← Nat.two_pow_add_eq_or_of_lt (by omega)]
  rw [hsum]
  omega

theorem Apart.map
    (h : Apart vm live) (howner : Active vm live owner)
    (hpd : pdIndex < 1023) (hkernel : 768 ≤ pdIndex → owner = vm.initialPageDir)
    {flags entry : ℕ} (hlarge : NotLarge vm owner pdIndex)
    (hfree : vm.word (staticFrame owner) pdIndex % 2 = 0 → HasFree vm.frames)
    (hflags : flags.testBit 7 = false) (hentry : entry < 4294967296)
    (hunused : Unused vm live (entry / 0x1000))
    (hmaps : MapsIn vm (staticFrame owner) pdIndex ptIndex (flags &&& 0x3FF)
      entry mid) : Apart mid live := by
  cases hmaps with
  | present htable =>
      exact h.map_present howner hpd flags
        ⟨htable, hlarge htable.1⟩ hentry hunused rfl
  | absent habsent halloc =>
      obtain ⟨frame, hlow, hhigh, -, hclear⟩ := hfree habsent
      exact h.map_absent howner hpd hkernel habsent halloc
        (h.directories.alloc_ne_zero halloc hlow hhigh hclear) hflags hentry
        hunused rfl

theorem map_apart
    {next : Vm} {virtAddr phyAddr flags : UInt32}
    (h : Apart vm live) (hactive : Active vm live pageDir)
    (hmay : MapsUnused vm live pageDir (.map virtAddr phyAddr flags))
    (hok : memMapPage virtAddr.toNat phyAddr.toNat flags.toNat
      (memChangePageDir vm pageDir) = .ok next) : Apart next live := by
  have hstart : kernelStart = 3221225472 := rfl
  obtain ⟨hbelow, haligned, hunused, hflags, hmay⟩ := hmay
  obtain ⟨hentry, hframe, -⟩ :=
    pageEntry_spec phyAddr.toNat_lt haligned hflags
  rw [← hframe] at hunused
  have hsmall := hflags.spec.2.1
  rcases Nat.lt_or_ge virtAddr.toNat kernelStart with huser | hkernel
  · rw [editedFrom, if_neg (by omega)] at hmay
    obtain ⟨owner, howner, hself, hmaps⟩ :=
      h.directories.map_user hactive huser hok
    obtain ⟨hlarge, hfree⟩ := hmay owner howner hself
    exact (h.change pageDir).map howner (by omega) (fun _ => by omega) hlarge
      hfree hsmall hentry (hunused.change _) hmaps
  · rw [editedFrom, if_pos hkernel] at hmay
    obtain ⟨mapped, hmaps, rfl⟩ :=
      h.directories.map_kernel hactive hkernel hbelow hok
    obtain ⟨hlarge, hfree⟩ := hmay _ (.inl rfl) h.directories.initial_self
    exact ((h.change _).map (.inl rfl) (by omega) (fun _ => rfl) hlarge hfree
      hsmall hentry (hunused.change _) hmaps).leave pageDir

theorem unmap_apart
    {next : Vm} {virtAddr : UInt32}
    (h : Apart vm live) (hactive : Active vm live pageDir)
    (hmay : MapsUnused vm live pageDir (.unmap virtAddr))
    (hok : memUnmapPage virtAddr.toNat (memChangePageDir vm pageDir) =
      .ok next) : Apart next live := by
  have hstart : kernelStart = 3221225472 := rfl
  obtain ⟨hbelow, hmay⟩ := hmay
  rcases Nat.lt_or_ge virtAddr.toNat kernelStart with huser | hkernel
  · rw [editedFrom, if_neg (by omega)] at hmay
    obtain ⟨owner, howner, hself, hunmaps⟩ :=
      h.directories.unmap_user hactive huser hok
    exact (h.change pageDir).unmap howner (by omega) (by omega)
      (fun _ => by omega) (hmay owner howner hself) hunmaps
  · rw [editedFrom, if_pos hkernel] at hmay
    rcases h.directories.unmap_kernel hactive hkernel hbelow hok with
      ⟨-, rfl⟩ | ⟨table, unmapped, -, -, hunmaps, rfl⟩
    · exact h.change pageDir
    · exact ((h.change _).unmap (.inl rfl) (by omega) (by omega)
        (fun huser => by omega) (hmay _ (.inl rfl) h.directories.initial_self)
        hunmaps).leave pageDir

theorem call_apart
    {next : Vm} {result : ℕ} {call : VmmCall}
    (h : Apart vm live) (hactive : Active vm live pageDir)
    (hmay : MapsUnused vm live pageDir call)
    (hcall : call.run (memChangePageDir vm pageDir) = .ok (result, next)) :
    Apart next (if result = 0 then live else result :: live) := by
  have hchanged := h.change pageDir
  cases call with
  | allocFrame =>
      obtain ⟨rfl, address, frames, halloc, rfl⟩ :=
        VmmCall.run_allocFrame hcall
      exact hchanged.alloc halloc
  | newPageDir =>
      rcases VmmCall.run_newPageDir hcall with
        ⟨rfl, rfl⟩ | ⟨i, hi, hunused, rfl, rfl⟩
      · exact hchanged
      · rw [if_neg (hchanged.directories.layout.slot_ne_zero hi)]
        exact hchanged.newPageDir hi hunused
  | map virtAddr phyAddr flags =>
      obtain ⟨rfl, hmap⟩ := VmmCall.run_map hcall
      exact map_apart h hactive hmay hmap
  | unmap virtAddr =>
      obtain ⟨rfl, hunmap⟩ := VmmCall.run_unmap hcall
      exact unmap_apart h hactive hmay hunmap

end

/-! ## Runs -/

section

variable {initialPageDir pageDirs kernelEnd memHigh : ℕ}
  {memory : ℕ → ℕ → ℕ} {vm : Vm} {live : List ℕ}

theorem bootState_apart
    (himage : KernelImage initialPageDir pageDirs kernelEnd) :
    Apart (bootState initialPageDir pageDirs kernelEnd memHigh memory) [] := by
  have hdirs : Directories
      (bootState initialPageDir pageDirs kernelEnd memHigh memory) [] :=
    bootState_directories himage
  have hnone : ∀ {P x t}, Active
      (bootState initialPageDir pageDirs kernelEnd memHigh memory) [] P →
      x < 1023 → ¬TableAt
        (bootState initialPageDir pageDirs kernelEnd memHigh memory) P x t := by
    rintro P x t hP hx ⟨hpoints, hsmall⟩
    have hinitial : P = initialPageDir := hP.resolve_right (by simp)
    rw [hinitial] at hpoints hsmall
    unfold Points at hpoints
    rw [bootState_initial himage, if_neg (by omega)] at hpoints hsmall
    by_cases hlarge : x = 768
    · rw [if_pos hlarge] at hsmall
      revert hsmall
      decide
    · rw [if_neg hlarge] at hpoints
      omega
  have hno : ∀ t, ¬IsTable
      (bootState initialPageDir pageDirs kernelEnd memHigh memory) [] t := by
    rintro t ⟨P, hP, x, hx, hat⟩
    exact hnone hP hx hat
  exact {
    directories := hdirs
    table := fun t ht => absurd ht (hno t)
    bounded := fun t ht => absurd ht (hno t)
    kernel := fun P hP x _ hx t hat => absurd hat (hnone hP hx)
    unique := fun P hP _ _ x hx _ _ t hat => absurd hat (hnone hP hx)
    page := fun _ ⟨t, ht, _⟩ => absurd ht (hno t)
    pages := fun t ht => absurd ht (hno t) }

theorem VmmRun.apart
    (himage : KernelImage initialPageDir pageDirs kernelEnd)
    (hrun : VmmRun MapsUnused
      (bootState initialPageDir pageDirs kernelEnd memHigh memory) live vm) :
    Apart vm live := by
  induction hrun with
  | boot => exact bootState_apart himage
  | call hrun hactive hmay hcall ih => exact call_apart ih hactive hmay hcall

end

/-- A frame that is taken and not used for a page yet. -/
theorem takeFrame
    {boot vm : Vm} {live : List ℕ} {pageDir phys : ℕ} {frames : Frames}
    (hrun : VmmRun MapsUnused boot live vm) (hactive : Active vm live pageDir)
    (halloc : pmmAllocPageFrame vm.frames = .ok (phys, frames)) :
    VmmRun MapsUnused boot live
      { memChangePageDir vm pageDir with frames := frames } := by
  have hcall : VmmCall.run (memChangePageDir vm pageDir) .allocFrame =
      .ok (0, { memChangePageDir vm pageDir with frames := frames }) := by
    have hsame : pmmAllocPageFrame (memChangePageDir vm pageDir).frames =
        .ok (phys, frames) := halloc
    simp only [VmmCall.run, hsame]
    rfl
  have hmay : MapsUnused vm live pageDir .allocFrame := trivial
  exact .call hrun hactive hmay hcall

end ClOs.Memory
