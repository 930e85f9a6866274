import ClOs.FileCreation
import ClOs.FrameExhaustion
import ClOs.ProcessCreation
import ClOs.Scheduling

/-!
# The returns of `create_process`

How the calls of `create_process` change the slots of the descriptor tables and
the page directories in use, where it returns, and what its stages have done by
then.
-/

namespace ClOs

open Memory

variable {Device : Type}

namespace Memory

/-! ## Page directories in use -/

theorem writeEntry_pageDirsUsed
    {vm next : Vm} {i index value : ℕ}
    (hwrite : writeEntry vm i index value = .ok next) :
    next.pageDirsUsed = vm.pageDirsUsed := by
  obtain ⟨frame, -, hnext⟩ := Outcome.bind_eq_ok.mp hwrite
  cases hnext
  rfl

theorem zeroEntries_pageDirsUsed
    {vm next : Vm} {i count index : ℕ}
    (hzero : zeroEntries i count index vm = .ok next) :
    next.pageDirsUsed = vm.pageDirsUsed := by
  induction count generalizing index vm with
  | zero =>
      cases hzero
      rfl
  | succ count ih =>
      obtain ⟨middle, hwrite, hrest⟩ := Outcome.bind_eq_ok.mp hzero
      exact (ih hrest).trans (writeEntry_pageDirsUsed hwrite)

theorem ensurePageTable_pageDirsUsed
    {vm next : Vm} {pdIndex pdeFlags : ℕ}
    (htable : ensurePageTable pdIndex pdeFlags vm = .ok next) :
    next.pageDirsUsed = vm.pageDirsUsed := by
  obtain ⟨pde, -, htable⟩ := Outcome.bind_eq_ok.mp htable
  split_ifs at htable with hpde
  · obtain ⟨⟨ptPaddr, frames⟩, -, htable⟩ := Outcome.bind_eq_ok.mp htable
    rw [Outcome.bind_eq_ok] at htable
    obtain ⟨entered, henter, hzero⟩ := htable
    rw [zeroEntries_pageDirsUsed hzero, writeEntry_pageDirsUsed henter]
  · cases htable
    rfl

@[simp] theorem enterKernelHalf_pageDirsUsed (virtAddr : ℕ) (vm : Vm) :
    (enterKernelHalf virtAddr vm).pageDirsUsed = vm.pageDirsUsed := by
  unfold enterKernelHalf
  split_ifs <;> rfl

@[simp] theorem leaveKernelHalf_pageDirsUsed (prevPageDir : ℕ) (vm : Vm) :
    (leaveKernelHalf prevPageDir vm).pageDirsUsed = vm.pageDirsUsed := by
  unfold leaveKernelHalf
  split_ifs <;> rfl

theorem memMapPage_pageDirsUsed
    {vm next : Vm} {virtAddr phyAddr flags : ℕ}
    (hmap : memMapPage virtAddr phyAddr flags vm = .ok next) :
    next.pageDirsUsed = vm.pageDirsUsed := by
  obtain ⟨tabled, htable, hmap⟩ := Outcome.bind_eq_ok.mp hmap
  obtain ⟨written, hwrite, hmap⟩ := Outcome.bind_eq_ok.mp hmap
  cases hmap
  rw [leaveKernelHalf_pageDirsUsed]
  exact (writeEntry_pageDirsUsed hwrite).trans
    ((ensurePageTable_pageDirsUsed htable).trans
      (enterKernelHalf_pageDirsUsed virtAddr vm))

theorem growHeap_spec
    {vm next : Vm} {pages : List ℕ}
    (hgrow : pages.foldlM Heap.mapHeapPage vm = .ok next) :
    next.pageDirsUsed = vm.pageDirsUsed ∧
      vm.frames.allocated.card + pages.length ≤
        next.frames.allocated.card := by
  induction pages generalizing vm with
  | nil =>
      cases hgrow
      refine ⟨rfl, ?_⟩
      rw [List.length_nil, Nat.add_zero]
  | cons page pages ih =>
      rw [List.foldlM_cons, Outcome.bind_eq_ok] at hgrow
      obtain ⟨middle, hpage, hgrow⟩ := hgrow
      obtain ⟨hdirs, hcard⟩ := ih hgrow
      unfold Heap.mapHeapPage at hpage
      rw [Outcome.bind_eq_ok] at hpage
      obtain ⟨⟨phys, frames⟩, halloc, hpage⟩ := hpage
      dsimp only at hpage
      split_ifs at hpage with hphys
      have htaken := pmmAllocPageFrame_card halloc
      have hmapped := memMapPage_card hpage
      rw [if_neg hphys] at htaken
      rw [hdirs, memMapPage_pageDirsUsed hpage]
      refine ⟨rfl, ?_⟩
      rw [List.length_cons]
      dsimp only at hmapped
      omega

end Memory

namespace Elf

theorem elfLoad_pageDirsUsed (image : ByteStore) (pageDir : ℕ) (l : Loader) :
    (elfLoad image pageDir l).2.vm.pageDirsUsed = l.vm.pageDirsUsed := by
  refine elfLoad_keeps (fun vm => vm.pageDirsUsed = l.vm.pageDirsUsed)
    (fun vm => vm.pageDirsUsed = l.vm.pageDirsUsed) (fun _ => rfl) rfl ?_
    (fun vm hvm => ⟨hvm, hvm⟩)
  intro _ performed access rest mid _ _ hmid
  cases access with
  | read offset => exact hmid
  | map virtAddr =>
      change (mapNewPage virtAddr mid).2.vm.pageDirsUsed = _
      cases halloc : pmmAllocPageFrame mid.vm.frames with
      | error halt =>
          rw [mapNewPage_halts halloc]
          exact hmid
      | ok taken =>
          obtain ⟨phys, frames⟩ := taken
          by_cases hphys : phys = 0
          · rw [hphys] at halloc
            rw [mapNewPage_zero halloc]
            exact hmid
          · cases hmap : memMapPage virtAddr phys pageFlags
                { mid.vm with frames := frames } with
            | error halt =>
                rw [mapNewPage_error halloc hphys hmap]
                exact hmid
            | ok vm =>
                rw [mapNewPage_ok halloc hphys hmap]
                exact (memMapPage_pageDirsUsed hmap).trans hmid
  | write a value =>
      change (writeByte a value mid).2.vm.pageDirsUsed = _
      cases hstore : storeByte a value mid.vm with
      | error halt =>
          rw [writeByte_error hstore]
          exact hmid
      | ok vm =>
          rw [writeByte_ok hstore]
          refine Eq.trans ?_ hmid
          unfold storeByte at hstore
          split at hstore
          · cases hstore
          · cases hstore
            rfl

end Elf

namespace Vfs

/-! ## The slots of a table -/

def slotsOf (s : Vfs Device) (table : Option ℕ) (i : ℕ) : Option ℕ :=
  (table.bind s.tables).bind (fun table => table.files i)

variable {s next : Vfs Device} {stdOutFile current address i : ℕ}
  {table : FdTable} {path : CString} {flags : ℕ} {allocated : Option ℕ}
  {fd : ℤ}

theorem slotsOf_congr
    (hsame : next.tables = s.tables) (pointer : Option ℕ) :
    next.slotsOf pointer = s.slotsOf pointer := by
  funext i
  unfold slotsOf
  rw [hsame]

theorem slotsOf_table
    (htable : s.tables current = some table) :
    s.slotsOf (some current) = table.files := by
  funext i
  simp [slotsOf, htable]

/-- `vfs_open` finds the file and gets an object for it while the slot of the
standard output is empty. -/
def FillsStdout (s : Vfs Device) (path : CString) (flags : ℕ)
    (allocated : Option ℕ) : Prop :=
  ∃ current table, s.vfsFdTable = some current ∧
    s.tables current = some table ∧ table.files stdoutSlot = none ∧
    s.Finds path flags ∧ allocated ≠ none

structure WithStdout (files after : ℕ → Option ℕ) : Prop where
  others : ∀ i ≠ stdoutSlot, after i = files i
  kept : files stdoutSlot ≠ none → after stdoutSlot = files stdoutSlot
  filled : after stdoutSlot ≠ none

theorem retain_tables
    (h : s.retain address = .ok next) :
    next.tables = s.tables ∧ next.vfsFdTable = s.vfsFdTable := by
  unfold retain at h
  rw [Outcome.bind_eq_ok] at h
  obtain ⟨file, -, h⟩ := h
  cases h
  exact ⟨rfl, rfl⟩

theorem release_tables
    (h : s.release address = .ok next) :
    next.tables = s.tables ∧ next.vfsFdTable = s.vfsFdTable := by
  unfold release at h
  rw [Outcome.bind_eq_ok] at h
  obtain ⟨file, -, h⟩ := h
  split_ifs at h
  all_goals
    cases h
    exact ⟨rfl, rfl⟩

theorem installStdout_ok
    (h : s.installStdout stdOutFile current = .ok next) :
    next.vfsFdTable = s.vfsFdTable ∧
      ∃ table after, s.tables current = some table ∧
        next.tables current = some after ∧
        WithStdout table.files after.files := by
  unfold Vfs.installStdout at h
  rw [Outcome.bind_eq_ok] at h
  obtain ⟨table, htable, h⟩ := h
  rw [fdTable_eq_ok] at htable
  split_ifs at h with hfree
  · obtain ⟨htables, hcurrent⟩ := retain_tables h
    have hafter : next.tables current = some
        { files := Function.update table.files stdoutSlot (some stdOutFile)
          count := u32 (table.count + 1) } := by
      rw [htables]
      exact Function.update_self _ _ _
    exact ⟨hcurrent, table, _, htable, hafter, {
      others := fun i hi => Function.update_of_ne hi _ _
      kept := fun hused => absurd hfree hused
      filled := by simp }⟩
  · cases h
    exact ⟨rfl, table, table, htable, htable, fun _ _ => rfl, fun _ => rfl,
      hfree⟩

theorem vfsFdAlloc_ok
    (h : s.vfsFdAlloc stdOutFile current address = .ok (fd, next)) :
    next.vfsFdTable = s.vfsFdTable ∧
      ∃ table after filled, s.tables current = some table ∧
        next.tables current = some after ∧
        WithStdout table.files filled ∧
        ((fd = -1 ∧ after.files = filled) ∨
          ∃ i, fd = (i : ℕ) ∧ 3 ≤ i ∧ i < fdMax ∧ filled i = none ∧
            after.files = Function.update filled i (some address)) := by
  unfold Vfs.vfsFdAlloc at h
  rw [Outcome.bind_eq_ok] at h
  obtain ⟨middle, hstdout, h⟩ := h
  obtain ⟨hcurrent, table, installed, htable, hmiddle, hfilled⟩ :=
    installStdout_ok hstdout
  rw [Outcome.bind_eq_ok] at h
  obtain ⟨found, hfound, h⟩ := h
  rw [fdTable_eq_ok, hmiddle, Option.some.injEq] at hfound
  subst hfound
  cases hslot : freeSlot installed with
  | none =>
      simp only [hslot, pure, Except.pure, Except.ok.injEq,
        Prod.mk.injEq] at h
      obtain ⟨rfl, rfl⟩ := h
      exact ⟨hcurrent, table, installed, installed.files, htable, hmiddle,
        hfilled, .inl ⟨rfl, rfl⟩⟩
  | some i =>
      simp only [hslot] at h
      rw [Outcome.bind_eq_ok] at h
      obtain ⟨last, hretain, h⟩ := h
      simp only [pure, Except.pure, Except.ok.injEq, Prod.mk.injEq] at h
      obtain ⟨rfl, rfl⟩ := h
      obtain ⟨htables, hlast⟩ := retain_tables hretain
      obtain ⟨hlow, hhigh, hfree, -⟩ := freeSlot_eq_some hslot
      have hafter : last.tables current = some
          { files := Function.update installed.files i (some address)
            count := u32 (installed.count + 1) } := by
        rw [htables]
        exact Function.update_self _ _ _
      exact ⟨hlast.trans hcurrent, table, _, installed.files, htable, hafter,
        hfilled, .inr ⟨i, rfl, hlow, hhigh, hfree, rfl⟩⟩

/-- What `vfs_open` makes of the slots of the table in use: nothing, or the slot
of the standard output is filled, and another one if the call succeeds. -/
theorem vfsOpen_slots
    (h : s.vfsOpen stdOutFile (some path) flags allocated = .ok (fd, next)) :
    next.vfsFdTable = s.vfsFdTable ∧
      ((fd = -1 ∧ next.tables = s.tables ∧
          ¬s.FillsStdout path flags allocated) ∨
        ∃ current table after filled, s.vfsFdTable = some current ∧
          s.tables current = some table ∧
          next.tables current = some after ∧
          s.Finds path flags ∧ allocated ≠ none ∧
          WithStdout table.files filled ∧
          ((fd = -1 ∧ after.files = filled) ∨
            ∃ i address, fd = (i : ℕ) ∧ 3 ≤ i ∧ i < fdMax ∧
              filled i = none ∧
              after.files = Function.update filled i (some address))) := by
  unfold vfsOpen at h
  cases hcurrent : s.vfsFdTable with
  | none =>
      simp only [hcurrent, pure, Except.pure, Except.ok.injEq,
        Prod.mk.injEq] at h
      obtain ⟨rfl, rfl⟩ := h
      refine ⟨hcurrent, .inl ⟨rfl, rfl, ?_⟩⟩
      rintro ⟨current, table, hsome, -⟩
      rw [hcurrent] at hsome
      cases hsome
  | some current =>
      simp only [hcurrent] at h
      rw [Outcome.bind_eq_ok] at h
      obtain ⟨⟨result, middle⟩, hopen, h⟩ := h
      obtain ⟨htables, htable, hcase⟩ := vfsFileOpen_ok hopen
      rw [hcurrent] at htable
      rcases hcase with
        ⟨rfl, -, hnot⟩ | ⟨address, file, rfl, rfl, hfinds, -⟩
      · simp only [pure, Except.pure, Except.ok.injEq, Prod.mk.injEq] at h
        obtain ⟨rfl, rfl⟩ := h
        refine ⟨htable, .inl ⟨rfl, htables, ?_⟩⟩
        rintro ⟨-, -, -, -, -, hfinds, hgiven⟩
        exact hnot hgiven hfinds
      · obtain ⟨hnext, found, after, filled, hfound, hafter, hfilled,
          hresult⟩ := vfsFdAlloc_ok h
        rw [htables] at hfound
        refine ⟨hnext.trans htable, .inr ⟨current, found, after, filled, rfl,
          hfound, hafter, hfinds, Option.some_ne_none address, hfilled, ?_⟩⟩
        rcases hresult with hfailed | ⟨i, hi⟩
        · exact .inl hfailed
        · exact .inr ⟨i, address, hi⟩

theorem vfsRead_objects
    {buffer filled : ByteStore} {size read : ℕ}
    (h : s.vfsRead fd buffer size = .ok (read, filled, next)) :
    next.tables = s.tables ∧ next.vfsFdTable = s.vfsFdTable := by
  refine ⟨(vfsRead_edits h).1, ?_⟩
  unfold vfsRead at h
  cases hslot : s.vfsFdGet fd with
  | none =>
      simp only [hslot, pure, Except.pure, Except.ok.injEq,
        Prod.mk.injEq] at h
      rw [← h.2.2]
  | some address =>
      simp only [hslot] at h
      unfold vfsFileRead at h
      rw [Outcome.bind_eq_ok] at h
      obtain ⟨file, -, h⟩ := h
      split_ifs at h
      · simp only [pure, Except.pure, Except.ok.injEq, Prod.mk.injEq] at h
        rw [← h.2.2]
      · cases hops : s.vfsCurrentFs with
        | none =>
            simp only [hops, pure, Except.pure, Except.ok.injEq,
              Prod.mk.injEq] at h
            rw [← h.2.2]
        | some ops =>
            simp only [hops] at h
            rw [Outcome.bind_eq_ok] at h
            obtain ⟨⟨count, store⟩, -, h⟩ := h
            simp only [pure, Except.pure, Except.ok.injEq,
              Prod.mk.injEq] at h
            obtain ⟨-, -, rfl⟩ := h
            split_ifs <;> rfl

theorem vfsClose_slots
    {result : ℤ} (hcurrent : s.vfsFdTable = some current)
    (htable : s.tables current = some table) (hi : i < fdMax)
    (hslot : table.files i = some address)
    (h : s.vfsClose i = .ok (result, next)) :
    next.vfsFdTable = s.vfsFdTable ∧
      ∃ after, next.tables current = some after ∧
        after.files = Function.update table.files i none := by
  have hfd : fdMax = 256 := rfl
  have hget : s.vfsFdGet (i : ℤ) = some address := by
    unfold vfsFdGet
    rw [if_neg (by omega), hcurrent]
    simp [htable, hslot]
  unfold vfsClose at h
  simp only [hcurrent, hget] at h
  rw [Outcome.bind_eq_ok] at h
  obtain ⟨found, hfound, h⟩ := h
  rw [fdTable_eq_ok, htable, Option.some.injEq] at hfound
  subst hfound
  rw [Outcome.bind_eq_ok] at h
  obtain ⟨last, hfree, h⟩ := h
  simp only [pure, Except.pure, Except.ok.injEq, Prod.mk.injEq] at h
  obtain ⟨-, rfl⟩ := h
  unfold vfsFdFree at hfree
  rw [Outcome.bind_eq_ok] at hfree
  obtain ⟨released, hrelease, hfree⟩ := hfree
  simp only [pure, Except.pure, Except.ok.injEq] at hfree
  rw [← hfree]
  obtain ⟨-, hsame⟩ := release_tables hrelease
  refine ⟨hsame, _, Function.update_self _ _ _, ?_⟩
  simp

/-- Closing a descriptor whose object is there. -/
theorem vfsClose_ok
    {s : Vfs Device} {fd : ℤ} {current address : ℕ} {table : FdTable}
    {file : VfsFile} (hcurrent : s.vfsFdTable = some current)
    (hslot : s.vfsFdGet fd = some address)
    (htable : s.tables current = some table)
    (hobject : s.objects address = some file) :
    ∃ next, s.vfsClose fd = .ok (0, next) := by
  have hfound : s.fdTable current = .ok table := fdTable_eq_ok.2 htable
  unfold vfsClose
  simp only [hcurrent, hslot, hfound, bind, Except.bind, vfsFdFree, release,
    object, hobject]
  split_ifs
  all_goals exact ⟨_, rfl⟩

end Vfs

namespace Kernel

variable {k opened read next : Kernel Device} {stdOutFile : ℕ}
  {path : CString} {given : Allocations} {fd : ℤ} {result : Option ℕ}

/-! ## The returns -/

/-- `elf_load` has been called and has returned. -/
structure Loads (k : Kernel Device) (image : ByteStore)
    (given : Allocations) (address pageDir pid : ℕ) (table : Option ℕ)
    (equipped : Kernel Device) (code : ℤ) (entryPoint : ℕ) (vm : Vm) :
    Prop where
  process : given.process = some address
  equip : k.equip given = .ok (pageDir, table, pid, equipped)
  load : loadImage image pageDir equipped.vm = .ok (code, entryPoint, vm)

/-- How `create_process` returns. -/
inductive Returns (k : Kernel Device) (stdOutFile : ℕ) (path : CString)
    (given : Allocations) : Option ℕ → Kernel Device → Prop
  | notInitialised (hinit : k.isInitProcess = false) :
      Returns k stdOutFile path given none k
  | notOpened {fd : ℤ} {opened : Kernel Device}
      (hinit : k.isInitProcess = true)
      (hopen : k.openImage stdOutFile path given = .ok (fd, opened))
      (hfd : fd < 0) : Returns k stdOutFile path given none opened
  | notRead {fd : ℤ} {opened read : Kernel Device}
      (hinit : k.isInitProcess = true)
      (hopen : k.openImage stdOutFile path given = .ok (fd, opened))
      (hfd : 0 ≤ fd) (hread : opened.readImage fd given = .ok (none, read)) :
      Returns k stdOutFile path given none read
  | notLoaded {fd : ℤ} {opened read equipped : Kernel Device}
      {image : ByteStore} {address pageDir pid entryPoint : ℕ}
      {table : Option ℕ} {code : ℤ} {vm : Vm}
      (hinit : k.isInitProcess = true)
      (hopen : k.openImage stdOutFile path given = .ok (fd, opened))
      (hfd : 0 ≤ fd)
      (hread : opened.readImage fd given = .ok (some image, read))
      (hloads : (read.useTable k.vfs.vfsFdTable).Loads image given address
        pageDir pid table equipped code entryPoint vm)
      (hcode : code ≠ 0) :
      Returns k stdOutFile path given none { equipped with vm := vm }
  | created {fd : ℤ} {opened read equipped : Kernel Device}
      {image : ByteStore} {address pageDir pid entryPoint : ℕ}
      {table : Option ℕ} {vm : Vm} {s : Scheduler}
      (hinit : k.isInitProcess = true)
      (hopen : k.openImage stdOutFile path given = .ok (fd, opened))
      (hfd : 0 ≤ fd)
      (hread : opened.readImage fd given = .ok (some image, read))
      (hloads : (read.useTable k.vfs.vfsFdTable).Loads image given address
        pageDir pid table equipped 0 entryPoint vm)
      (happend : ({ equipped with vm := vm } :
          Kernel Device).scheduler.appendProcess address
        (Scheduler.newProcess pid pageDir table (UInt32.ofNat entryPoint)) =
          .ok s) :
      Returns k stdOutFile path given (some address)
        { equipped with vm := vm, processes := s.processes }

theorem createProcess_returns
    (hcall : k.createProcess stdOutFile path given = .ok (result, next)) :
    k.Returns stdOutFile path given result next := by
  unfold createProcess at hcall
  split_ifs at hcall with hinit
  · simp only [pure, Except.pure, Except.ok.injEq, Prod.mk.injEq] at hcall
    obtain ⟨rfl, rfl⟩ := hcall
    exact .notInitialised hinit
  · rw [Bool.not_eq_false] at hinit
    rw [Outcome.bind_eq_ok] at hcall
    obtain ⟨⟨fd, opened⟩, hopen, hcall⟩ := hcall
    dsimp only at hcall
    split_ifs at hcall with hfd
    · simp only [pure, Except.pure, Except.ok.injEq, Prod.mk.injEq] at hcall
      obtain ⟨rfl, rfl⟩ := hcall
      exact .notOpened hinit hopen hfd
    · rw [Outcome.bind_eq_ok] at hcall
      obtain ⟨⟨image, read⟩, hread, hcall⟩ := hcall
      cases image with
      | none =>
          simp only [pure, Except.pure, Except.ok.injEq,
            Prod.mk.injEq] at hcall
          obtain ⟨rfl, rfl⟩ := hcall
          exact .notRead hinit hopen (by omega) hread
      | some image =>
          dsimp only at hcall
          unfold startProcess at hcall
          cases hprocess : given.process with
          | none =>
              simp only [hprocess] at hcall
              cases hcall
          | some address =>
              simp only [hprocess] at hcall
              rw [Outcome.bind_eq_ok] at hcall
              obtain ⟨⟨pageDir, table, pid, equipped⟩, hequip, hcall⟩ := hcall
              dsimp only at hcall
              rw [Outcome.bind_eq_ok] at hcall
              obtain ⟨⟨code, entryPoint, vm⟩, hload, hcall⟩ := hcall
              dsimp only at hcall
              split_ifs at hcall with hcode
              · rw [Outcome.bind_eq_ok] at hcall
                obtain ⟨s, happend, hcall⟩ := hcall
                simp only [pure, Except.pure, Except.ok.injEq,
                  Prod.mk.injEq] at hcall
                obtain ⟨rfl, rfl⟩ := hcall
                subst hcode
                exact .created hinit hopen (by omega) hread
                  ⟨hprocess, hequip, hload⟩ happend
              · simp only [pure, Except.pure, Except.ok.injEq,
                  Prod.mk.injEq] at hcall
                obtain ⟨rfl, rfl⟩ := hcall
                exact .notLoaded hinit hopen (by omega) hread
                  ⟨hprocess, hequip, hload⟩ hcode

theorem Returns.createProcess
    (h : k.Returns stdOutFile path given result next) :
    k.createProcess stdOutFile path given = .ok (result, next) := by
  unfold Kernel.createProcess
  cases h with
  | notInitialised hinit =>
      rw [if_pos hinit]
      rfl
  | notOpened hinit hopen hfd =>
      rw [if_neg (by simp [hinit])]
      simp only [hopen, bind, Except.bind, if_pos hfd]
      rfl
  | notRead hinit hopen hfd hread =>
      rw [if_neg (by simp [hinit])]
      simp only [hopen, bind, Except.bind, if_neg (not_lt.2 hfd), hread]
      rfl
  | notLoaded hinit hopen hfd hread hloads hcode =>
      rw [if_neg (by simp [hinit])]
      simp only [hopen, bind, Except.bind, if_neg (not_lt.2 hfd), hread,
        startProcess, hloads.process, hloads.equip, hloads.load, if_neg hcode]
      rfl
  | created hinit hopen hfd hread hloads happend =>
      rw [if_neg (by simp [hinit])]
      simp only [hopen, bind, Except.bind, if_neg (not_lt.2 hfd), hread,
        startProcess, hloads.process, hloads.equip, hloads.load, if_true,
        happend]
      rfl

/-! ## The stages -/

theorem openImage_ok
    (h : k.openImage stdOutFile path given = .ok (fd, opened)) :
    ∃ vm vfs, given.openPages.foldlM Heap.mapHeapPage k.vm = .ok vm ∧
      (k.useTable k.kernelFdTable).vfs.vfsOpen stdOutFile (some path)
        Vfs.oRdonly given.file = .ok (fd, vfs) ∧
      opened = { k with vfs := vfs, vm := vm } := by
  unfold openImage growHeap at h
  rw [Outcome.bind_eq_ok] at h
  obtain ⟨grown, hgrow, h⟩ := h
  rw [Outcome.bind_eq_ok] at hgrow
  obtain ⟨vm, hpages, hgrow⟩ := hgrow
  cases hgrow
  rw [Outcome.bind_eq_ok] at h
  obtain ⟨⟨result, vfs⟩, hopen, h⟩ := h
  simp only [pure, Except.pure, Except.ok.injEq, Prod.mk.injEq] at h
  obtain ⟨rfl, rfl⟩ := h
  exact ⟨vm, vfs, hpages, hopen, rfl⟩

theorem readImage_ok
    {image : Option ByteStore}
    (h : k.readImage fd given = .ok (image, read)) :
    ∃ vm vfs middle, given.readPages.foldlM Heap.mapHeapPage k.vm = .ok vm ∧
      middle.tables = k.vfs.tables ∧ middle.vfsFdTable = k.vfs.vfsFdTable ∧
      read = { k with vfs := vfs, vm := vm } ∧
      if image = none then vfs = middle
      else ∃ result, middle.vfsClose fd = .ok (result, vfs) := by
  unfold readImage at h
  rw [Outcome.bind_eq_ok] at h
  obtain ⟨fileSize, -, h⟩ := h
  split_ifs at h with hbuffer
  unfold growHeap at h
  rw [Outcome.bind_eq_ok] at h
  obtain ⟨grown, hgrow, h⟩ := h
  rw [Outcome.bind_eq_ok] at hgrow
  obtain ⟨vm, hpages, hgrow⟩ := hgrow
  cases hgrow
  rw [Outcome.bind_eq_ok] at h
  obtain ⟨⟨bytesRead, elfFile, middle⟩, hread, h⟩ := h
  obtain ⟨htables, htable⟩ := Vfs.vfsRead_objects hread
  dsimp only at h
  split_ifs at h with hshort
  · simp only [pure, Except.pure, Except.ok.injEq, Prod.mk.injEq] at h
    obtain ⟨rfl, rfl⟩ := h
    exact ⟨vm, middle, middle, hpages, htables, htable, rfl, rfl⟩
  · rw [Outcome.bind_eq_ok] at h
    obtain ⟨⟨result, vfs⟩, hclose, h⟩ := h
    simp only [pure, Except.pure, Except.ok.injEq, Prod.mk.injEq] at h
    obtain ⟨rfl, rfl⟩ := h
    exact ⟨vm, vfs, middle, hpages, htables, htable, rfl, result, hclose⟩

theorem equip_ok
    {equipped : Kernel Device} {pageDir pid : ℕ} {table : Option ℕ}
    (h : k.equip given = .ok (pageDir, table, pid, equipped)) :
    ∃ vm last, given.processPages.foldlM Heap.mapHeapPage k.vm = .ok vm ∧
      given.tablePages.foldlM Heap.mapHeapPage (vmmNewPageDir vm).2 =
        .ok last ∧
      pageDir = (vmmNewPageDir vm).1 ∧ table = given.table ∧
      pid = (allocatePid k.pidBitmap).1 ∧
      equipped = { k with
        vfs := (k.vfs.vfsFdTableCreate given.table).2
        vm := last
        pidBitmap := (allocatePid k.pidBitmap).2 } := by
  unfold equip growHeap at h
  rw [Outcome.bind_eq_ok] at h
  obtain ⟨grown, hgrow, h⟩ := h
  rw [Outcome.bind_eq_ok] at hgrow
  obtain ⟨vm, hpages, hgrow⟩ := hgrow
  cases hgrow
  dsimp only at h
  rw [Outcome.bind_eq_ok] at h
  obtain ⟨grown, hgrow, h⟩ := h
  rw [Outcome.bind_eq_ok] at hgrow
  obtain ⟨last, hlast, hgrow⟩ := hgrow
  cases hgrow
  simp only [pure, Except.pure, Except.ok.injEq, Prod.mk.injEq] at h
  obtain ⟨rfl, rfl, rfl, rfl⟩ := h
  refine ⟨vm, last, hpages, hlast, rfl, ?_, rfl, rfl⟩
  unfold Vfs.vfsFdTableCreate
  cases given.table <;> rfl

theorem loadImage_eq
    {image : ByteStore} {pageDir : ℕ} (vm : Vm)
    (h : pageDir ≠ 0 ∨ ¬Elf.Accepts image) :
    loadImage image pageDir vm =
      loadResult (Elf.elfLoad image pageDir ⟨vm, 0, []⟩) := by
  unfold loadImage
  rw [if_neg]
  rintro ⟨hzero, hvalid⟩
  refine (h.resolve_left (not_not.2 hzero)) ?_
  by_contra hnot
  obtain ⟨more, hrejects⟩ := Elf.validateElf_rejects hnot ⟨vm, 0, []⟩
  rw [hrejects] at hvalid
  cases hvalid

theorem loadImage_ok
    {image : ByteStore} {pageDir entryPoint : ℕ} {vm next : Vm} {code : ℤ}
    (h : loadImage image pageDir vm = .ok (code, entryPoint, next)) :
    (pageDir ≠ 0 ∨ ¬Elf.Accepts image) ∧
      ∃ l, Elf.elfLoad image pageDir ⟨vm, 0, []⟩ = (.ok code, l) ∧
        l.entryPoint = entryPoint ∧ l.vm = next := by
  have hdir : pageDir ≠ 0 ∨ ¬Elf.Accepts image := by
    by_contra hboth
    rw [not_or, not_not, not_not] at hboth
    unfold loadImage at h
    rw [if_pos ⟨hboth.1, hboth.2 _⟩] at h
    cases h
  refine ⟨hdir, ?_⟩
  rw [loadImage_eq vm hdir] at h
  cases hload : Elf.elfLoad image pageDir ⟨vm, 0, []⟩ with
  | mk outcome l =>
      rw [hload] at h
      rcases outcome with (halt | _) | result
      · cases h
      · cases h
      · cases h
        exact ⟨l, rfl, rfl, rfl⟩

/-- An image that is rejected leaves the paging state. -/
theorem loadImage_rejected
    {image : ByteStore} (hnot : ¬Elf.Accepts image) (pageDir : ℕ) (vm : Vm) :
    loadImage image pageDir vm = .ok (-1, 0, vm) := by
  obtain ⟨more, hload⟩ := Elf.elfLoad_rejects hnot pageDir ⟨vm, 0, []⟩
  rw [loadImage_eq vm (.inr hnot), hload]
  rfl

/-- A page that gets no frame makes the load fail. -/
theorem loadImage_runsOut
    {image : ByteStore} {pageDir : ℕ} {vm : Vm} {performed rest : List Elf.Access}
    {mid : Elf.Loader} (hdir : pageDir ≠ 0) (haccepts : Elf.Accepts image)
    (hout : Elf.RunsOut image pageDir ⟨vm, 0, []⟩ performed rest mid) :
    ∃ entryPoint next, loadImage image pageDir vm =
      .ok (-1, entryPoint, next) := by
  obtain ⟨a, last, hsplit, hrun, hpage⟩ := hout
  rw [loadImage_eq vm (.inl hdir),
    Elf.elfLoad_outOfMemory haccepts hsplit hrun hpage]
  exact ⟨_, _, rfl⟩

theorem loadImage_code
    {image : ByteStore} {pageDir entryPoint : ℕ} {vm next : Vm} {code : ℤ}
    (haccepts : Elf.Accepts image)
    (h : loadImage image pageDir vm = .ok (code, entryPoint, next)) :
    code = 0 ∨ ∃ performed rest mid,
      Elf.RunsOut image pageDir ⟨vm, 0, []⟩ performed rest mid := by
  obtain ⟨-, l, hload, -⟩ := loadImage_ok h
  rcases Elf.elfLoad_cases haccepts hload with
    ⟨hzero, -⟩ | ⟨performed, a, rest, mid, last, hsplit, hrun, hpage⟩
  · exact .inl hzero
  · exact .inr ⟨performed, rest, mid, a, last, hsplit, hrun, hpage⟩

theorem vmmNewPageDir_used_iff (vm : Vm) :
    (vmmNewPageDir vm).2.pageDirsUsed = vm.pageDirsUsed ↔
      unusedPageDir vm = none := by
  cases hunused : unusedPageDir vm with
  | none =>
      rw [vmmNewPageDir_none hunused]
      exact iff_of_true rfl rfl
  | some i =>
      refine iff_of_false ?_ (Option.some_ne_none i)
      obtain ⟨-, hfree⟩ := unusedPageDir_spec hunused
      rw [vmmNewPageDir_some hunused]
      intro hsame
      have htaken : (addPageDir vm i).pageDirsUsed i = true := by
        change Function.update vm.pageDirsUsed i true i = true
        exact Function.update_self _ _ _
      rw [hsame, hfree] at htaken
      cases htaken

theorem allocatePid_same_iff (pidBitmap : ByteStore) :
    (allocatePid pidBitmap).2 = pidBitmap ↔ unusedPid pidBitmap = none := by
  unfold allocatePid
  cases hunused : unusedPid pidBitmap with
  | none => exact iff_of_true rfl rfl
  | some i =>
      refine iff_of_false ?_ (Option.some_ne_none i)
      have hfree := List.find?_some hunused
      intro hsame
      have hset := ByteStore.bit_setBit pidBitmap i i
      dsimp only at hsame
      rw [hsame] at hset
      simp only [decide_true, Bool.or_true] at hset
      rw [hset] at hfree
      cases hfree

end Kernel

end ClOs
