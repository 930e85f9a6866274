import ClOs.AddressSpaces

/-!
# The kernel half of every address space

`sync_page_dirs` copies the kernel half of `initial_page_dir` to the directories
in use, and `mem_map_page` calls it only when it has switched CR3.  A page table
that is made while `initial_page_dir` is in CR3 is not copied.
-/

namespace ClOs.Memory

/-- Entries 768 to 1022 of every live directory are those of
`initial_page_dir`, up to `PAGE_FLAG_OWNER`. -/
def KernelAgrees (vm : Vm) (live : List ℕ) : Prop :=
  ∀ pageDir ∈ live, ∀ x, 768 ≤ x → x < 1023 →
    withoutOwner (vm.word (staticFrame pageDir) x) =
      withoutOwner (vm.word (staticFrame vm.initialPageDir) x)

/-- No call maps or unmaps the recursive mapping itself, and none that needs a
page table for the kernel half is made with `initial_page_dir` in CR3 once there
are other directories. -/
def CopiesTables (vm : Vm) (live : List ℕ) (pageDir : ℕ) : VmmCall → Prop
  | .allocFrame | .newPageDir => True
  | .map virtAddr _ _ => virtAddr.toNat < 0xFFC00000 ∧
      (kernelStart ≤ virtAddr.toNat → pageDir = vm.initialPageDir →
        live ≠ [] → vm.word (staticFrame vm.initialPageDir)
          (virtAddr.toNat / 0x400000) % 2 = 1)
  | .unmap virtAddr => virtAddr.toNat < 0xFFC00000

/-! ## Steps -/

section

variable {vm mid : Vm} {live : List ℕ} {pageDir owner pdIndex : ℕ}

theorem KernelAgrees.congr (h : KernelAgrees vm live)
    (hinitial : mid.initialPageDir = vm.initialPageDir)
    (hrows : ∀ pageDir, Active vm live pageDir → ∀ x, 768 ≤ x → x < 1023 →
      mid.word (staticFrame pageDir) x = vm.word (staticFrame pageDir) x) :
    KernelAgrees mid live := by
  intro pageDir hlive x hlow hhigh
  rw [hinitial, hrows pageDir (.inr hlive) x hlow hhigh,
    hrows _ (.inl rfl) x hlow hhigh]
  exact h pageDir hlive x hlow hhigh

theorem KernelAgrees.change (h : KernelAgrees vm live) (pageDir : ℕ) :
    KernelAgrees (memChangePageDir vm pageDir) live := h

/-- An edit of the user half, or one that keeps the entry. -/
theorem KernelAgrees.edit (h : KernelAgrees vm live)
    (hdirs : Directories vm live)
    (hedit : EditsDir vm mid (staticFrame owner) pdIndex)
    (hkeep : pdIndex < 768 ∨ mid.word (staticFrame owner) pdIndex =
      vm.word (staticFrame owner) pdIndex) :
    KernelAgrees mid live := by
  refine h.congr hedit.statics.initialPageDir ?_
  intro pageDir hactive x hlow hhigh
  by_cases hentry : staticFrame pageDir = staticFrame owner ∧ x = pdIndex
  · obtain ⟨hframe, rfl⟩ := hentry
    rcases hkeep with huser | hsame
    · omega
    · rw [hframe, hsame]
  · exact hedit.rows _ (hdirs.dirFrame hactive) x hentry

theorem KernelAgrees.sync (h : Directories vm live) :
    KernelAgrees (syncPageDirs vm) live := by
  intro pageDir hlive x hlow hhigh
  obtain ⟨i, hi, hused, rfl⟩ := h.slot pageDir hlive
  change withoutOwner _ = withoutOwner
    ((syncPageDirs vm).word (staticFrame vm.initialPageDir) x)
  rw [syncPageDirs_slot vm hi hused hlow (by omega),
    syncPageDirs_initial h.layout, withoutOwner_idem]

theorem KernelAgrees.leave (h : KernelAgrees vm live)
    (hdirs : Directories vm live) (pageDir : ℕ) :
    KernelAgrees (leaveKernelHalf pageDir vm) live := by
  unfold leaveKernelHalf
  split_ifs
  · exact (KernelAgrees.sync hdirs).change pageDir
  · exact h

/-- The switch back to another directory copies the kernel half. -/
theorem Directories.leave_agrees (h : Directories vm live)
    (hlive : pageDir ∈ live) :
    KernelAgrees (leaveKernelHalf pageDir vm) live := by
  have hstart : kernelStart = 3221225472 := rfl
  have hlow := h.layout.low pageDir (h.static (.inr hlive))
  have hne : pageDir ≠ vm.initialPageDir := by
    obtain ⟨i, hi, -, rfl⟩ := h.slot pageDir hlive
    exact h.layout.apart i hi
  unfold leaveKernelHalf
  rw [if_pos ⟨by omega, hne⟩]
  exact (KernelAgrees.sync h).change pageDir

theorem MapsIn.entry_same
    {dir ptIndex flags entry : ℕ}
    (h : MapsIn vm dir pdIndex ptIndex flags entry mid)
    (hne : ∀ target, Points vm.word dir pdIndex target → target ≠ dir)
    (hpresent : vm.word dir pdIndex % 2 = 1) :
    mid.word dir pdIndex = vm.word dir pdIndex := by
  cases h with
  | present htable => exact setAt_of_ne _ _ (.inl (hne _ htable).symm)
  | absent habsent halloc => omega

/-- The directory has a page table once a page is mapped. -/
theorem MapsIn.entry_present
    {dir ptIndex flags entry : ℕ}
    (h : MapsIn vm dir pdIndex ptIndex flags entry mid)
    (hflags : flags < 0x400)
    (hne : ∀ target, Points vm.word dir pdIndex target → target ≠ dir)
    (hfresh : ∀ address frames,
      pmmAllocPageFrame vm.frames = .ok (address, frames) →
        address / 0x1000 ≠ dir) :
    mid.word dir pdIndex % 2 = 1 := by
  cases h with
  | present htable =>
      exact (htable.congr (setAt_of_ne _ _ (.inl (hne _ htable).symm))).1
  | absent habsent halloc =>
      have hframe := hfresh _ _ halloc
      exact ((newTable_points vm.word pdIndex hflags hframe).congr
        (setAt_of_ne _ _ (.inl hframe.symm))).1

theorem UnmapsIn.entry_same
    {dir ptIndex : ℕ} {user : Prop}
    (h : UnmapsIn vm dir pdIndex ptIndex user mid)
    (hne : ∀ target, Points vm.word dir pdIndex target → target ≠ dir)
    (hkernel : ¬user) :
    mid.word dir pdIndex = vm.word dir pdIndex := by
  cases h with
  | none hnone => rfl
  | page htable hpage hfree =>
      exact setAt_of_ne _ _ (.inl (hne _ htable).symm)
  | table huser => exact absurd huser hkernel

theorem KernelAgrees.newPageDir (h : Directories vm live)
    {i : ℕ} (hi : i < numPageDirs) (hunused : vm.pageDirsUsed i = false) :
    KernelAgrees (addPageDir vm i) (vm.pageDirs i :: live) := by
  have hclaim := h.claim hi hunused
  intro pageDir hlive x hlow hhigh
  change withoutOwner _ = withoutOwner
    ((addPageDir vm i).word (staticFrame vm.initialPageDir) x)
  rcases List.mem_cons.1 hlive with rfl | hlive
  · rw [addPageDir_row h.layout hi, if_neg (by omega), if_pos (by omega),
      addPageDir_initial h.layout hi, withoutOwner_idem]
  · have hne : ∀ {other}, Active vm live other →
        staticFrame other ≠ staticFrame (vm.pageDirs i) :=
      fun hactive => h.unused_ne hi hunused hactive
    rw [addPageDir_other (hne (.inr hlive)), addPageDir_other (hne (.inl rfl))]
    exact KernelAgrees.sync hclaim pageDir hlive x hlow hhigh

end

/-! ## Runs -/

section

variable {vm next : Vm} {live : List ℕ} {pageDir : ℕ}

theorem map_agrees
    {virtAddr phyAddr flags : ℕ}
    (hdirs : Directories vm live) (hagrees : KernelAgrees vm live)
    (hactive : Active vm live pageDir) (hbelow : virtAddr < 0xFFC00000)
    (hcopied : kernelStart ≤ virtAddr → pageDir = vm.initialPageDir →
      live ≠ [] → vm.word (staticFrame vm.initialPageDir)
        (virtAddr / 0x400000) % 2 = 1)
    (hok : memMapPage virtAddr phyAddr flags (memChangePageDir vm pageDir) =
      .ok next) :
    Directories next live ∧ KernelAgrees next live := by
  have hstart : kernelStart = 3221225472 := rfl
  have hindex : virtAddr / 0x400000 < 1023 := by omega
  rcases Nat.lt_or_ge virtAddr kernelStart with huser | hkernel
  · obtain ⟨owner, howner, -, hmaps⟩ := hdirs.map_user hactive huser hok
    have hedit := (hdirs.change _).map_edits howner hindex hmaps
    exact ⟨(hdirs.change pageDir).edit hedit hindex,
      (hagrees.change pageDir).edit (hdirs.change pageDir) hedit
        (.inl (by omega))⟩
  · obtain ⟨mapped, hmaps, rfl⟩ :=
      hdirs.map_kernel hactive hkernel hbelow hok
    have hedit := (hdirs.change _).map_edits (.inl rfl) hindex hmaps
    have hmapped := (hdirs.change _).edit hedit hindex
    refine ⟨hmapped.leave pageDir, ?_⟩
    rcases hactive with hinitial | hlive
    · by_cases hempty : live = []
      · rw [hempty]
        intro other hlive
        cases hlive
      · have hsame := hmaps.entry_same
          (fun target htable => hdirs.table_ne (.inl rfl) hindex htable
            (.inl rfl)) (hcopied hkernel hinitial hempty)
        exact ((hagrees.change _).edit (hdirs.change _) hedit
          (.inr hsame)).leave hmapped pageDir
    · exact hmapped.leave_agrees hlive

theorem unmap_agrees
    {virtAddr : ℕ}
    (hdirs : Directories vm live) (hagrees : KernelAgrees vm live)
    (hactive : Active vm live pageDir) (hbelow : virtAddr < 0xFFC00000)
    (hok : memUnmapPage virtAddr (memChangePageDir vm pageDir) = .ok next) :
    Directories next live ∧ KernelAgrees next live := by
  have hstart : kernelStart = 3221225472 := rfl
  have hindex : virtAddr / 0x400000 < 1023 := by omega
  rcases Nat.lt_or_ge virtAddr kernelStart with huser | hkernel
  · obtain ⟨owner, howner, -, hunmaps⟩ := hdirs.unmap_user hactive huser hok
    have hedit := (hdirs.change _).unmap_edits howner hindex hunmaps
    exact ⟨(hdirs.change pageDir).edit hedit hindex,
      (hagrees.change pageDir).edit (hdirs.change pageDir) hedit
        (.inl (by omega))⟩
  · rcases hdirs.unmap_kernel hactive hkernel hbelow hok with
      ⟨-, rfl⟩ | ⟨-, unmapped, -, -, hunmaps, rfl⟩
    · exact ⟨hdirs.change pageDir, hagrees.change pageDir⟩
    · have hedit := (hdirs.change _).unmap_edits (.inl rfl) hindex hunmaps
      have hunmapped := (hdirs.change _).edit hedit hindex
      have hsame := hunmaps.entry_same
        (fun target htable => hdirs.table_ne (.inl rfl) hindex htable
          (.inl rfl)) (not_lt.2 hkernel)
      exact ⟨hunmapped.leave pageDir, ((hagrees.change _).edit (hdirs.change _)
        hedit (.inr hsame)).leave hunmapped pageDir⟩

theorem call_agrees
    {result : ℕ} {call : VmmCall}
    (hdirs : Directories vm live) (hagrees : KernelAgrees vm live)
    (hactive : Active vm live pageDir)
    (hmay : CopiesTables vm live pageDir call)
    (hcall : call.run (memChangePageDir vm pageDir) = .ok (result, next)) :
    Directories next (if result = 0 then live else result :: live) ∧
      KernelAgrees next (if result = 0 then live else result :: live) := by
  have hchanged := hdirs.change pageDir
  cases call with
  | allocFrame =>
      obtain ⟨rfl, address, frames, halloc, rfl⟩ :=
        VmmCall.run_allocFrame hcall
      exact ⟨hchanged.alloc halloc, hagrees⟩
  | newPageDir =>
      rcases VmmCall.run_newPageDir hcall with
        ⟨rfl, rfl⟩ | ⟨i, hi, hunused, rfl, rfl⟩
      · exact ⟨hchanged, hagrees⟩
      · rw [if_neg (hchanged.layout.slot_ne_zero hi)]
        exact ⟨hchanged.newPageDir hi hunused,
          KernelAgrees.newPageDir hchanged hi hunused⟩
  | map virtAddr phyAddr flags =>
      obtain ⟨rfl, hmap⟩ := VmmCall.run_map hcall
      exact map_agrees hdirs hagrees hactive hmay.1 hmay.2 hmap
  | unmap virtAddr =>
      obtain ⟨rfl, hunmap⟩ := VmmCall.run_unmap hcall
      exact unmap_agrees hdirs hagrees hactive hmay hunmap

/-- A page table that is made with `initial_page_dir` in CR3 is missing in every
other directory. -/
theorem kernelTable_notCopied
    {virtAddr phyAddr flags : ℕ}
    (hdirs : Directories vm live) (hagrees : KernelAgrees vm live)
    (hlive : pageDir ∈ live)
    (hkernel : kernelStart ≤ virtAddr) (hbelow : virtAddr < 0xFFC00000)
    (habsent : vm.word (staticFrame vm.initialPageDir)
      (virtAddr / 0x400000) % 2 = 0)
    (hok : memMapPage virtAddr phyAddr flags
      (memChangePageDir vm vm.initialPageDir) = .ok next) :
    ¬KernelAgrees next live := by
  have hstart : kernelStart = 3221225472 := rfl
  have hindex : virtAddr / 0x400000 < 1023 := by omega
  obtain ⟨mapped, hmaps, rfl⟩ :=
    hdirs.map_kernel (.inl rfl) hkernel hbelow hok
  have hedit := (hdirs.change _).map_edits (.inl rfl) hindex hmaps
  have hmapped := (hdirs.change _).edit hedit hindex
  have hleave : leaveKernelHalf vm.initialPageDir mapped = mapped :=
    leaveKernelHalf_initial hedit.statics.initialPageDir
  have hne : staticFrame pageDir ≠ staticFrame vm.initialPageDir := by
    obtain ⟨i, hi, -, rfl⟩ := hdirs.slot pageDir hlive
    exact hdirs.layout.slot_ne_initial hi
  have hold : withoutOwner (vm.word (staticFrame pageDir)
      (virtAddr / 0x400000)) % 2 = 0 := by
    rw [hagrees pageDir hlive _ (by omega) hindex,
      (withoutOwner_spec (hdirs.bounded _ (.inl rfl) _)).1, habsent]
  have hnew : mapped.word (staticFrame vm.initialPageDir)
      (virtAddr / 0x400000) % 2 = 1 :=
    hmaps.entry_present (Nat.and_lt_two_pow flags (n := 10) (by norm_num))
      (fun target htable => hdirs.table_ne (.inl rfl) hindex htable
        (.inl rfl)) (fun _ _ halloc => hdirs.fresh (.inl rfl) halloc)
  intro hagreesNext
  rw [hleave] at hagreesNext
  have hsame := hagreesNext pageDir hlive _ (by omega) hindex
  rw [hedit.statics.initialPageDir,
    hedit.rows _ (hdirs.dirFrame (.inr hlive)) _ (fun h => hne h.1)] at hsame
  have hbound := hmapped.bounded _ (.inl rfl) (virtAddr / 0x400000)
  rw [hedit.statics.initialPageDir] at hbound
  have hmod := (withoutOwner_spec hbound).1
  simp only [memChangePageDir] at hsame hmod hnew
  rw [← hsame, hold, hnew] at hmod
  cases hmod

end

section

variable {initialPageDir pageDirs kernelEnd memHigh : ℕ}
  {memory : ℕ → ℕ → ℕ} {vm : Vm} {live : List ℕ}

theorem VmmRun.agrees
    (himage : KernelImage initialPageDir pageDirs kernelEnd)
    (hrun : VmmRun CopiesTables
      (bootState initialPageDir pageDirs kernelEnd memHigh memory) live vm) :
    Directories vm live ∧ KernelAgrees vm live := by
  induction hrun with
  | boot => exact ⟨bootState_directories himage, by simp [KernelAgrees]⟩
  | call hrun hactive hmay hcall ih =>
      exact call_agrees ih.1 ih.2 hactive hmay hcall

/-- The kernel halves agree in every state that such calls reach. -/
theorem kernelHalf_agrees
    (himage : KernelImage initialPageDir pageDirs kernelEnd)
    (hrun : VmmRun CopiesTables
      (bootState initialPageDir pageDirs kernelEnd memHigh memory) live vm) :
    KernelAgrees vm live :=
  (VmmRun.agrees himage hrun).2

end

/-! ## Two histories of heap growth -/

theorem kernelHalf_agrees_heapGrowth :
    ∃ vm, memMapPage 0xD0000000 0x400000 3 (memChangePageDir
        (addPageDir sampleBoot 1) 0xC0201000) = .ok vm ∧
      VmmRun CopiesTables sampleBoot [0xC0201000] vm ∧
      KernelAgrees vm [0xC0201000] := by
  have hfirst := sampleBoot_newPageDir CopiesTables trivial
  obtain ⟨address, frames, halloc⟩ := sampleBoot_alloc
  have hactive : Active (addPageDir sampleBoot 1) [0xC0201000] 0xC0201000 :=
    .inr (by simp)
  obtain ⟨vm, hmap⟩ := (VmmRun.agrees kernelImage_sample hfirst).1.map_ok
    hactive (by norm_num : 0xD0000000 < 0xFFC00000) halloc 0x400000 3
  have hmay : CopiesTables (addPageDir sampleBoot 1) [0xC0201000] 0xC0201000
      (.map 0xD0000000 0x400000 3) := by
    refine ⟨by decide, fun _ hinitial => ?_⟩
    exact absurd hinitial (by decide)
  have hrun := hfirst.map hactive 0xD0000000 0x400000 3 hmay hmap
  exact ⟨vm, hmap, hrun, kernelHalf_agrees kernelImage_sample hrun⟩

/-- A directory, and then the first page of the heap with `initial_page_dir` in
CR3. -/
theorem kernelHalf_differs :
    ∃ vm, VmmRun (fun _ _ _ _ => True) sampleBoot [0xC0201000] vm ∧
      ¬KernelAgrees vm [0xC0201000] := by
  obtain ⟨hdirs, hagrees⟩ := VmmRun.agrees kernelImage_sample
    (sampleBoot_newPageDir CopiesTables trivial)
  have hfirst := sampleBoot_newPageDir (fun _ _ _ _ => True) trivial
  obtain ⟨address, frames, halloc⟩ := sampleBoot_alloc
  have hactive : Active (addPageDir sampleBoot 1) [0xC0201000]
      (addPageDir sampleBoot 1).initialPageDir := .inl rfl
  obtain ⟨vm, hmap⟩ := hdirs.map_ok hactive
    (by norm_num : 0xD0000000 < 0xFFC00000) halloc 0x400000 3
  have hlive : 0xC0201000 ∈ [0xC0201000] := List.mem_singleton.2 rfl
  exact ⟨vm, hfirst.map hactive 0xD0000000 0x400000 3 trivial hmap,
    kernelTable_notCopied hdirs hagrees hlive (by decide) (by norm_num)
      sampleBoot_absent hmap⟩

end ClOs.Memory
