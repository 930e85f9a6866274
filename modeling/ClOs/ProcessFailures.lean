import ClOs.ProcessReturns

/-!
# Creations that fail

What each return of `NULL` from `create_process` leaves of the descriptor
tables, the page directories, the pids, the frames and the process list, and
what happens when a process cannot get all that it needs.
-/

namespace ClOs

open Memory

variable {Device : Type}

/-- All pages by which the heap grows during a call. -/
def Allocations.grown (given : Allocations) : List ℕ :=
  given.openPages ++ given.readPages ++ given.processPages ++ given.tablePages

namespace Kernel

variable {k opened read ready next : Kernel Device} {stdOutFile : ℕ}
  {path : CString} {given : Allocations} {fd : ℤ} {image : ByteStore}

/-! ## What a failed creation is to leave -/

def kernelSlots (k : Kernel Device) : ℕ → Option ℕ :=
  k.vfs.slotsOf k.kernelFdTable

/-- What a creation that fails is to leave as it was. -/
structure Unchanged (k next : Kernel Device) : Prop where
  vfsFdTable : next.vfs.vfsFdTable = k.vfs.vfsFdTable
  kernelSlots : next.kernelSlots = k.kernelSlots
  pageDirsUsed : next.vm.pageDirsUsed = k.vm.pageDirsUsed
  pidBitmap : next.pidBitmap = k.pidBitmap
  allocated : next.vm.frames.allocated = k.vm.frames.allocated
  processHead : next.processHead = k.processHead
  processes : next.processes = k.processes

/-- The call has read its image and has got its process.  It asks for the page
directory, the descriptor table and the pid next. -/
structure Asks (k : Kernel Device) (stdOutFile : ℕ) (path : CString)
    (given : Allocations) (image : ByteStore) (ready : Kernel Device) :
    Prop where
  initialised : k.isInitProcess = true
  process : given.process ≠ none
  read : ∃ fd opened read, k.openImage stdOutFile path given =
      .ok (fd, opened) ∧ 0 ≤ fd ∧
    opened.readImage fd given = .ok (some image, read) ∧
    (read.useTable k.vfs.vfsFdTable).growHeap given.processPages = .ok ready

/-- It gets them all. -/
structure Obtains (ready : Kernel Device) (given : Allocations) : Prop where
  pageDir : (vmmNewPageDir ready.vm).1 ≠ 0
  pid : (allocatePid ready.pidBitmap).1 ≠ 0
  table : given.table ≠ none
  tablePages : ∃ vm, given.tablePages.foldlM Heap.mapHeapPage
    (vmmNewPageDir ready.vm).2 = .ok vm

/-- A call that returns `NULL` has changed nothing, and a call that asks for what
it cannot get returns `NULL`. -/
def Restores (k : Kernel Device) (stdOutFile : ℕ) (path : CString)
    (given : Allocations) : Prop :=
  (∀ next, k.createProcess stdOutFile path given = .ok (none, next) →
    k.Unchanged next) ∧
  ∀ image ready, k.Asks stdOutFile path given image ready →
    ¬ready.Obtains given →
      ∃ next, k.createProcess stdOutFile path given = .ok (none, next)

/-- `kmalloc` gives addresses that are not in use, and the processes are a
list. -/
structure Sane (k : Kernel Device) (given : Allocations) : Prop where
  table : ∀ address ∈ given.table, k.vfs.tables address = none
  process : ∀ address ∈ given.process,
    k.processes address = none ∧ address < 4294967296
  list : k.isInitProcess = true → ∃ nodes, Scheduler.ProcessList k.scheduler nodes

/-- Opening the image puts the standard output into `kernel_fd_table`. -/
def FillsStdout (k : Kernel Device) (path : CString) (given : Allocations) :
    Prop :=
  (k.useTable k.kernelFdTable).vfs.FillsStdout path Vfs.oRdonly given.file

/-- The calls that leave everything as it was, or return a process with all
that it needs.  A failed `vfs_open` must find `kernel_fd_table` in use and a heap
that need not grow, and `vfs_read` must not fail.  With all that a process needs
the load must not fail; when something is missing, an image must be refused that
is none, neither a page directory nor a pid may be left, and the heap must not
have grown. -/
structure Recovers (k : Kernel Device) (stdOutFile : ℕ) (path : CString)
    (given : Allocations) : Prop where
  opened : ∀ fd opened, k.isInitProcess = true →
    k.openImage stdOutFile path given = .ok (fd, opened) → fd < 0 →
      k.vfs.vfsFdTable = k.kernelFdTable ∧ given.openPages = [] ∧
        ¬k.FillsStdout path given
  read : ∀ fd opened image read, k.isInitProcess = true →
    k.openImage stdOutFile path given = .ok (fd, opened) → 0 ≤ fd →
    opened.readImage fd given = .ok (image, read) → image ≠ none
  loaded : ∀ image ready vm, k.Asks stdOutFile path given image ready →
    ready.Obtains given →
    given.tablePages.foldlM Heap.mapHeapPage (vmmNewPageDir ready.vm).2 =
      .ok vm →
      Elf.Accepts image ∧ ∀ performed rest mid,
        ¬Elf.RunsOut image (vmmNewPageDir ready.vm).1 ⟨vm, 0, []⟩ performed rest
          mid
  refused : ∀ image ready, k.Asks stdOutFile path given image ready →
    ¬ready.Obtains given →
      ¬Elf.Accepts image ∧ unusedPageDir k.vm = none ∧
        unusedPid k.pidBitmap = none ∧ given.grown = [] ∧
        ¬k.FillsStdout path given

/-! ## What the returns leave -/

theorem grown_iff
    {pages : List ℕ} {vm next : Vm}
    (hgrow : pages.foldlM Heap.mapHeapPage vm = .ok next) :
    next.frames.allocated = vm.frames.allocated ↔ pages = [] := by
  constructor
  · intro hsame
    have hcard := (growHeap_spec hgrow).2
    rw [hsame] at hcard
    exact List.eq_nil_of_length_eq_zero (by omega)
  · rintro rfl
    cases hgrow
    rfl

/-- The slots of `kernel_fd_table` after an image has been opened. -/
structure Opened (k opened : Kernel Device) (path : CString)
    (given : Allocations) (current : ℕ) (files filled : ℕ → Option ℕ)
    (i address : ℕ) : Prop where
  pointer : k.kernelFdTable = some current
  kernelFdTable : opened.kernelFdTable = k.kernelFdTable
  inUse : opened.vfs.vfsFdTable = some current
  present : ∃ table, k.vfs.tables current = some table
  before : k.kernelSlots = files
  table : ∃ table, opened.vfs.tables current = some table ∧
    table.files = Function.update filled i (some address)
  withStdout : Vfs.WithStdout files filled
  stdout : k.FillsStdout path given ↔ files Vfs.stdoutSlot = none
  low : 3 ≤ i
  high : i < Vfs.fdMax
  free : filled i = none

theorem Opened.free_before
    {current i address : ℕ} {files filled : ℕ → Option ℕ}
    (h : Opened k opened path given current files filled i address) :
    files i = none := by
  have hlow := h.low
  have hne : i ≠ Vfs.stdoutSlot := by
    unfold Vfs.stdoutSlot
    omega
  rw [← h.withStdout.others i hne, h.free]

theorem openImage_opened
    (h : k.openImage stdOutFile path given = .ok (fd, opened))
    (hfd : 0 ≤ fd) :
    ∃ current files filled i address, fd = (i : ℕ) ∧
      Opened k opened path given current files filled i address := by
  obtain ⟨vm, vfs, -, hopen, rfl⟩ := openImage_ok h
  obtain ⟨htable, ⟨hfailed, -⟩ | ⟨current, table, after, filled, hcurrent,
    hbefore, hafter, hfinds, hgiven, hfilled, hresult⟩⟩ :=
      Vfs.vfsOpen_slots hopen
  · omega
  · rcases hresult with ⟨hfailed, -⟩ | ⟨i, address, hi, hlow, hhigh, hfree,
      hfiles⟩
    · omega
    · refine ⟨current, table.files, filled, i, address, hi, {
        pointer := hcurrent
        kernelFdTable := rfl
        inUse := htable.trans hcurrent
        present := ⟨table, hbefore⟩
        before := ?_
        table := ⟨after, hafter, hfiles⟩
        withStdout := hfilled
        stdout := ?_
        low := hlow
        high := hhigh
        free := hfree }⟩
      · unfold kernelSlots
        rw [show k.kernelFdTable = some current from hcurrent]
        exact Vfs.slotsOf_table hbefore
      · constructor
        · rintro ⟨other, found, hother, hfound, hnone, -⟩
          rw [hcurrent, Option.some.injEq] at hother
          subst hother
          rw [hbefore, Option.some.injEq] at hfound
          rwa [hfound]
        · intro hnone
          exact ⟨current, table, hcurrent, hbefore, hnone, hfinds, hgiven⟩

theorem unchanged_notOpened_iff
    (h : k.openImage stdOutFile path given = .ok (fd, opened))
    (hfd : fd < 0) :
    k.Unchanged opened ↔
      k.vfs.vfsFdTable = k.kernelFdTable ∧ given.openPages = [] ∧
        ¬k.FillsStdout path given := by
  obtain ⟨vm, vfs, hgrow, hopen, rfl⟩ := openImage_ok h
  have hdirs := (growHeap_spec hgrow).1
  obtain ⟨htable, hcase⟩ := Vfs.vfsOpen_slots hopen
  have hpointer : vfs.vfsFdTable = k.kernelFdTable := htable
  have hslots : (vfs.slotsOf k.kernelFdTable = k.kernelSlots ↔
      ¬k.FillsStdout path given) := by
    rcases hcase with ⟨-, htables, hnot⟩ | ⟨current, table, after, filled,
      hcurrent, hbefore, hafter, hfinds, hgiven, hfilled, hresult⟩
    · exact iff_of_true (Vfs.slotsOf_congr htables _) hnot
    · have hfiles : after.files = filled := by
        rcases hresult with ⟨-, hfiles⟩ | ⟨i, address, hi, -⟩
        · exact hfiles
        · omega
      have hcurrent : k.kernelFdTable = some current := hcurrent
      have hold : k.kernelSlots = table.files := by
        unfold kernelSlots
        rw [hcurrent]
        exact Vfs.slotsOf_table hbefore
      rw [hcurrent, Vfs.slotsOf_table hafter, hfiles, hold]
      constructor
      · rintro hsame ⟨other, found, hother, hfound, hnone, -⟩
        have hother : k.kernelFdTable = some other := hother
        rw [hcurrent, Option.some.injEq] at hother
        subst hother
        rw [hbefore, Option.some.injEq] at hfound
        rw [← hfound, ← hsame] at hnone
        exact hfilled.filled hnone
      · intro hnot
        funext i
        by_cases hi : i = Vfs.stdoutSlot
        · subst hi
          refine hfilled.kept fun hnone => hnot ?_
          exact ⟨current, table, hcurrent, hbefore, hnone, hfinds, hgiven⟩
        · exact hfilled.others i hi
  constructor
  · intro hsame
    refine ⟨?_, (grown_iff hgrow).1 hsame.allocated,
      hslots.1 hsame.kernelSlots⟩
    rw [← hsame.vfsFdTable]
    exact hpointer
  · rintro ⟨hold, hpages, hnot⟩
    exact {
      vfsFdTable := hpointer.trans hold.symm
      kernelSlots := hslots.2 hnot
      pageDirsUsed := hdirs
      pidBitmap := rfl
      allocated := (grown_iff hgrow).2 hpages
      processHead := rfl
      processes := rfl }

/-- A call that ends in `vfs_read` leaves its descriptor open. -/
theorem not_unchanged_notRead
    (hopen : k.openImage stdOutFile path given = .ok (fd, opened))
    (hfd : 0 ≤ fd)
    (hread : opened.readImage fd given = .ok (none, read)) :
    ¬k.Unchanged read := by
  obtain ⟨current, files, filled, i, address, rfl, hopened⟩ :=
    openImage_opened hopen hfd
  obtain ⟨vm, vfs, middle, -, htables, -, rfl, rfl⟩ := readImage_ok hread
  obtain ⟨table, htable, hfiles⟩ := hopened.table
  intro hsame
  have hslot := congrFun hsame.kernelSlots i
  rw [hopened.before, hopened.free_before] at hslot
  unfold kernelSlots at hslot
  dsimp only at hslot
  rw [Vfs.slotsOf_congr htables, hopened.kernelFdTable, hopened.pointer,
    Vfs.slotsOf_table htable, hfiles, Function.update_self] at hslot
  cases hslot

theorem readImage_closed
    {current i address : ℕ} {files filled : ℕ → Option ℕ}
    {image : ByteStore}
    (hopened : Opened k opened path given current files filled i address)
    (hread : opened.readImage i given = .ok (some image, read)) :
    ∃ table, read.vfs.tables current = some table ∧ table.files = filled := by
  obtain ⟨vm, vfs, middle, -, htables, hpointer, rfl, result, hclose⟩ :=
    readImage_ok hread
  obtain ⟨table, htable, hfiles⟩ := hopened.table
  have hslot : table.files i = some address := by
    rw [hfiles, Function.update_self]
  obtain ⟨-, after, hafter, hempty⟩ := Vfs.vfsClose_slots
    (hpointer.trans hopened.inUse) (by rw [htables, htable]) hopened.high hslot
    hclose
  refine ⟨after, hafter, ?_⟩
  rw [hempty, hfiles, Function.update_idem, ← hopened.free,
    Function.update_eq_self]

/-- What is no part of the files or of the frames is not changed before the
process is allocated. -/
structure SameRest (k read : Kernel Device) : Prop where
  kernelFdTable : read.kernelFdTable = k.kernelFdTable
  pageDirsUsed : read.vm.pageDirsUsed = k.vm.pageDirsUsed
  pidBitmap : read.pidBitmap = k.pidBitmap
  isInitProcess : read.isInitProcess = k.isInitProcess
  processHead : read.processHead = k.processHead
  currentProcessRunning :
    read.currentProcessRunning = k.currentProcessRunning
  processes : read.processes = k.processes

theorem readImage_sameRest
    {image : Option ByteStore}
    (hopen : k.openImage stdOutFile path given = .ok (fd, opened))
    (hread : opened.readImage fd given = .ok (image, read)) :
    SameRest k read := by
  obtain ⟨first, vfs, hfirst, -, rfl⟩ := openImage_ok hopen
  obtain ⟨second, other, middle, hsecond, -, -, rfl, -⟩ := readImage_ok hread
  exact {
    kernelFdTable := rfl
    pageDirsUsed := (growHeap_spec hsecond).1.trans (growHeap_spec hfirst).1
    pidBitmap := rfl
    isInitProcess := rfl
    processHead := rfl
    currentProcessRunning := rfl
    processes := rfl }

/-- A load keeps the page directories in use that it finds. -/
theorem Loads.pageDirsUsed_iff
    {equipped : Kernel Device} {image : ByteStore}
    {address pageDir pid entryPoint : ℕ} {table : Option ℕ} {code : ℤ}
    {vm : Vm} (h : k.Loads image given address pageDir pid table equipped code
      entryPoint vm) :
    vm.pageDirsUsed = k.vm.pageDirsUsed ↔ unusedPageDir k.vm = none := by
  obtain ⟨first, last, hfirst, hlast, -, -, -, rfl⟩ := equip_ok h.equip
  obtain ⟨-, l, hload, -, rfl⟩ := loadImage_ok h.load
  have hloaded := Elf.elfLoad_pageDirsUsed image pageDir ⟨last, 0, []⟩
  rw [hload] at hloaded
  have hused : first.pageDirsUsed = k.vm.pageDirsUsed :=
    (growHeap_spec hfirst).1
  have hunused : unusedPageDir first = unusedPageDir k.vm := by
    unfold unusedPageDir
    rw [hused]
  rw [← hunused, ← vmmNewPageDir_used_iff, hused]
  have hsame : l.vm.pageDirsUsed = (vmmNewPageDir first).2.pageDirsUsed :=
    hloaded.trans (growHeap_spec hlast).1
  rw [hsame]

theorem Loads.kernelSlots
    {equipped : Kernel Device} {image : ByteStore}
    {address pageDir pid entryPoint current : ℕ} {table : Option ℕ} {code : ℤ}
    {vm : Vm} (h : k.Loads image given address pageDir pid table equipped code
      entryPoint vm) (hpointer : k.kernelFdTable = some current)
    (hapart : ∀ address ∈ given.table, address ≠ current) :
    ({ equipped with vm := vm } : Kernel Device).kernelSlots =
      k.kernelSlots := by
  obtain ⟨first, last, -, -, -, -, -, rfl⟩ := equip_ok h.equip
  unfold Kernel.kernelSlots
  dsimp only
  rw [hpointer]
  cases htable : given.table with
  | none => rfl
  | some other =>
      have hne : current ≠ other := (hapart other htable).symm
      funext i
      simp [Vfs.slotsOf, Vfs.vfsFdTableCreate, Vfs.setTable, hne]

/-- A call that ends in `elf_load`. -/
theorem unchanged_notLoaded_iff
    {equipped : Kernel Device} {image : ByteStore}
    {address pageDir pid entryPoint : ℕ} {table : Option ℕ} {code : ℤ}
    {vm : Vm} (htables : ∀ address ∈ given.table, k.vfs.tables address = none)
    (hopen : k.openImage stdOutFile path given = .ok (fd, opened))
    (hfd : 0 ≤ fd)
    (hread : opened.readImage fd given = .ok (some image, read))
    (hloads : (read.useTable k.vfs.vfsFdTable).Loads image given address pageDir
      pid table equipped code entryPoint vm) :
    k.Unchanged { equipped with vm := vm } ↔
      unusedPageDir k.vm = none ∧ unusedPid k.pidBitmap = none ∧
        vm.frames.allocated = k.vm.frames.allocated ∧
        ¬k.FillsStdout path given := by
  obtain ⟨current, files, filled, i, slot, rfl, hopened⟩ :=
    openImage_opened hopen hfd
  obtain ⟨closed, hclosed, hfiles⟩ := readImage_closed hopened hread
  have hrest := readImage_sameRest hopen hread
  have hpointer : (read.useTable k.vfs.vfsFdTable).kernelFdTable =
      some current := hrest.kernelFdTable.trans hopened.pointer
  have hslots := hloads.kernelSlots hpointer (by
    rintro address hgiven rfl
    obtain ⟨present, hpresent⟩ := hopened.present
    rw [htables address hgiven] at hpresent
    cases hpresent)
  have hnow : (read.useTable k.vfs.vfsFdTable).kernelSlots = filled := by
    unfold kernelSlots
    rw [hpointer, ← hfiles]
    exact Vfs.slotsOf_table hclosed
  have hdirs := hloads.pageDirsUsed_iff
  have hunused : unusedPageDir (read.useTable k.vfs.vfsFdTable).vm =
      unusedPageDir k.vm := by
    unfold unusedPageDir
    rw [show (read.useTable k.vfs.vfsFdTable).vm.pageDirsUsed =
      k.vm.pageDirsUsed from hrest.pageDirsUsed]
  rw [hunused, show (read.useTable k.vfs.vfsFdTable).vm.pageDirsUsed =
    k.vm.pageDirsUsed from hrest.pageDirsUsed] at hdirs
  have hpids := allocatePid_same_iff k.pidBitmap
  have hstdout : filled = files ↔ ¬k.FillsStdout path given := by
    rw [hopened.stdout]
    constructor
    · intro hsame hnone
      rw [← hsame] at hnone
      exact hopened.withStdout.filled hnone
    · intro hused
      funext j
      by_cases hj : j = Vfs.stdoutSlot
      · subst hj
        exact hopened.withStdout.kept hused
      · exact hopened.withStdout.others j hj
  obtain ⟨first, last, -, -, -, -, -, hequipped⟩ := equip_ok hloads.equip
  have hbitmap : equipped.pidBitmap = (allocatePid k.pidBitmap).2 := by
    rw [hequipped, ← hrest.pidBitmap]
    rfl
  constructor
  · intro hsame
    refine ⟨hdirs.1 hsame.pageDirsUsed, hpids.1 ?_, hsame.allocated,
      hstdout.1 ?_⟩
    · rw [← hbitmap]
      exact hsame.pidBitmap
    · rw [← hnow, ← hslots, ← hopened.before]
      exact hsame.kernelSlots
  · rintro ⟨hnone, hpid, hframes, hnot⟩
    exact {
      vfsFdTable := by
        rw [hequipped]
        unfold Vfs.vfsFdTableCreate
        cases given.table <;> rfl
      kernelSlots := by
        rw [hslots, hnow, hstdout.2 hnot, hopened.before]
      pageDirsUsed := hdirs.2 hnone
      pidBitmap := hbitmap.trans (hpids.2 hpid)
      allocated := hframes
      processHead := by
        rw [hequipped]
        exact hrest.processHead
      processes := by
        rw [hequipped]
        exact hrest.processes }

/-- A process that has been loaded is put at the end of the list. -/
theorem Sane.appends
    {equipped : Kernel Device} {image : ByteStore}
    {address pageDir pid entryPoint : ℕ} {table : Option ℕ} {code : ℤ}
    {vm : Vm} (hsane : k.Sane given) (hinit : k.isInitProcess = true)
    (hrest : SameRest k read)
    (hloads : (read.useTable k.vfs.vfsFdTable).Loads image given address pageDir
      pid table equipped code entryPoint vm) :
    ∃ nodes s, Scheduler.ProcessList k.scheduler nodes ∧
      ({ equipped with vm := vm } : Kernel Device).scheduler.appendProcess
          address (Scheduler.newProcess pid pageDir table
            (UInt32.ofNat entryPoint)) = .ok s ∧
      Scheduler.Appends ({ equipped with vm := vm } : Kernel Device).scheduler
        nodes address (Scheduler.newProcess pid pageDir table
          (UInt32.ofNat entryPoint)) s := by
  obtain ⟨nodes, hlist⟩ := hsane.list hinit
  obtain ⟨hfresh, hbound⟩ := hsane.process address hloads.process
  obtain ⟨first, last, -, -, -, -, -, hequipped⟩ := equip_ok hloads.equip
  have hprocesses : equipped.processes = k.processes := by
    rw [hequipped]
    exact hrest.processes
  have hlast : Scheduler.ProcessList
      ({ equipped with vm := vm } : Kernel Device).scheduler nodes := by
    refine Scheduler.SameList.processList ⟨?_, ?_, fun p => ?_⟩ hlist ?_
    · rw [hequipped]
      exact hrest.isInitProcess
    · rw [hequipped]
      exact hrest.processHead
    · exact congrArg (fun processes => (processes p).map
        (fun q : Process => (q.state, q.next))) hprocesses
    · rw [hequipped]
      have hcurrent := hlist.current
      rwa [← show read.currentProcessRunning =
        k.scheduler.currentProcessRunning from hrest.currentProcessRunning]
        at hcurrent
  have hfree : ({ equipped with vm := vm } :
      Kernel Device).scheduler.processes address = none :=
    (congrFun hprocesses address).trans hfresh
  obtain ⟨s, happend, happends⟩ := hlast.append hfree hbound
    (show (Scheduler.newProcess pid pageDir table
      (UInt32.ofNat entryPoint)).next = none from rfl)
  exact ⟨nodes, s, hlist, happend, happends⟩

/-- The stage at which a call that has loaded its image had asked for the
rest. -/
theorem Loads.asks
    {equipped : Kernel Device} {address pageDir pid entryPoint : ℕ}
    {table : Option ℕ} {code : ℤ} {vm : Vm}
    (hinit : k.isInitProcess = true)
    (hopen : k.openImage stdOutFile path given = .ok (fd, opened))
    (hfd : 0 ≤ fd) (hread : opened.readImage fd given = .ok (some image, read))
    (h : (read.useTable k.vfs.vfsFdTable).Loads image given address pageDir pid
      table equipped code entryPoint vm) :
    ∃ ready last, k.Asks stdOutFile path given image ready ∧
      given.tablePages.foldlM Heap.mapHeapPage (vmmNewPageDir ready.vm).2 =
        .ok last ∧
      loadImage image (vmmNewPageDir ready.vm).1 last =
        .ok (code, entryPoint, vm) := by
  obtain ⟨first, last, hfirst, hlast, rfl, -, -, rfl⟩ := equip_ok h.equip
  refine ⟨{ read.useTable k.vfs.vfsFdTable with vm := first }, last,
    ⟨hinit, by simp [h.process], fd, opened, read, hopen, hfd, hread, ?_⟩,
    hlast, h.load⟩
  unfold growHeap
  rw [hfirst]
  rfl

/-- The other way round. -/
theorem Asks.loads
    (h : k.Asks stdOutFile path given image ready) {last vm : Vm} {code : ℤ}
    {entryPoint : ℕ}
    (hgrow : given.tablePages.foldlM Heap.mapHeapPage
      (vmmNewPageDir ready.vm).2 = .ok last)
    (hload : loadImage image (vmmNewPageDir ready.vm).1 last =
      .ok (code, entryPoint, vm)) :
    ∃ fd opened read address table pid equipped,
      k.openImage stdOutFile path given = .ok (fd, opened) ∧ 0 ≤ fd ∧
      opened.readImage fd given = .ok (some image, read) ∧
      (read.useTable k.vfs.vfsFdTable).Loads image given address
        (vmmNewPageDir ready.vm).1 pid table equipped code entryPoint vm := by
  obtain ⟨-, hprocess, fd, opened, read, hopen, hfd, hread, hready⟩ := h
  obtain ⟨address, haddress⟩ := Option.ne_none_iff_exists'.1 hprocess
  refine ⟨fd, opened, read, address, (ready.vfs.vfsFdTableCreate given.table).1,
    (allocatePid ready.pidBitmap).1, { ready with
      vfs := (ready.vfs.vfsFdTableCreate given.table).2
      vm := last
      pidBitmap := (allocatePid ready.pidBitmap).2 }, hopen, hfd, hread,
    haddress, ?_, hload⟩
  unfold equip
  rw [hready]
  simp only [growHeap, hgrow, bind, Except.bind, pure, Except.pure]

theorem Asks.unusedPageDir_eq
    (h : k.Asks stdOutFile path given image ready) :
    unusedPageDir ready.vm = unusedPageDir k.vm := by
  obtain ⟨-, -, fd, opened, read, hopen, -, hread, hready⟩ := h
  unfold growHeap at hready
  rw [Outcome.bind_eq_ok] at hready
  obtain ⟨vm, hgrow, hready⟩ := hready
  cases hready
  have hused := ((growHeap_spec hgrow).1.trans
    (readImage_sameRest hopen hread).pageDirsUsed : _ = k.vm.pageDirsUsed)
  unfold unusedPageDir
  rw [hused]

/-- When the heap does not grow the paging state is the one of the call. -/
theorem Asks.vm_eq
    (h : k.Asks stdOutFile path given image ready) (hgrown : given.grown = []) :
    ready.vm = k.vm ∧ given.tablePages = [] := by
  unfold Allocations.grown at hgrown
  simp only [List.append_eq_nil_iff] at hgrown
  obtain ⟨⟨⟨hopenPages, hreadPages⟩, hprocessPages⟩, htablePages⟩ := hgrown
  obtain ⟨-, -, fd, opened, read, hopen, -, hread, hready⟩ := h
  obtain ⟨first, vfs, hfirst, -, rfl⟩ := openImage_ok hopen
  obtain ⟨second, other, middle, hsecond, -, -, rfl, -⟩ := readImage_ok hread
  unfold growHeap at hready
  rw [Outcome.bind_eq_ok] at hready
  obtain ⟨third, hthird, hready⟩ := hready
  rw [hopenPages] at hfirst
  rw [hreadPages] at hsecond
  rw [hprocessPages] at hthird
  cases hfirst
  cases hsecond
  cases hthird
  cases hready
  exact ⟨rfl, htablePages⟩

theorem Asks.card_le
    (h : k.Asks stdOutFile path given image ready) {last : Vm}
    (hnone : unusedPageDir k.vm = none)
    (hgrow : given.tablePages.foldlM Heap.mapHeapPage
      (vmmNewPageDir ready.vm).2 = .ok last) :
    k.vm.frames.allocated.card + given.grown.length ≤
      last.frames.allocated.card := by
  have hready := h.unusedPageDir_eq
  rw [hnone] at hready
  rw [vmmNewPageDir_none hready] at hgrow
  obtain ⟨-, -, fd, opened, read, hopen, -, hread, hready⟩ := h
  obtain ⟨first, vfs, hfirst, -, rfl⟩ := openImage_ok hopen
  obtain ⟨second, other, middle, hsecond, -, -, rfl, -⟩ := readImage_ok hread
  unfold growHeap at hready
  rw [Outcome.bind_eq_ok] at hready
  obtain ⟨third, hthird, hready⟩ := hready
  cases hready
  have hopened := (growHeap_spec hfirst).2
  have hfilled := (growHeap_spec hsecond).2
  have hequipped := (growHeap_spec hthird).2
  have hended := (growHeap_spec hgrow).2
  unfold Allocations.grown
  simp only [List.length_append]
  dsimp only [useTable] at hfilled hequipped hended
  omega

/-- A call that gets all that it needs and restores everything does not fail. -/
theorem Restores.not_failed
    (h : k.Restores stdOutFile path given) (hsane : k.Sane given)
    (hasks : k.Asks stdOutFile path given image ready)
    (hobtains : ready.Obtains given) {last vm : Vm} {code : ℤ} {entryPoint : ℕ}
    (hgrow : given.tablePages.foldlM Heap.mapHeapPage
      (vmmNewPageDir ready.vm).2 = .ok last)
    (hload : loadImage image (vmmNewPageDir ready.vm).1 last =
      .ok (code, entryPoint, vm)) : code = 0 := by
  by_contra hcode
  obtain ⟨fd, opened, read, address, table, pid, equipped, hopen, hfd, hread,
    hloads⟩ := hasks.loads hgrow hload
  have hsame := h.1 _ (Returns.notLoaded hasks.initialised hopen hfd hread hloads
    hcode).createProcess
  have hnone := ((unchanged_notLoaded_iff hsane.table hopen hfd hread
    hloads).1 hsame).1
  rw [← hasks.unusedPageDir_eq] at hnone
  refine hobtains.pageDir ?_
  rw [vmmNewPageDir_none hnone]

/-- Where something is missing, a call that restores everything refuses an image
that is none, and has nothing that it could lose. -/
theorem Restores.refused
    (h : k.Restores stdOutFile path given) (hsane : k.Sane given)
    (hasks : k.Asks stdOutFile path given image ready)
    (hlacks : ¬ready.Obtains given) :
    ¬Elf.Accepts image ∧ unusedPageDir k.vm = none ∧
      unusedPid k.pidBitmap = none ∧ given.grown = [] ∧
      ¬k.FillsStdout path given := by
  obtain ⟨next, hcall⟩ := h.2 image ready hasks hlacks
  obtain ⟨hinit, -, fd, opened, read, hopen, hfd, hread, -⟩ := hasks
  have hsame := h.1 _ hcall
  cases createProcess_returns hcall with
  | notInitialised hnot =>
      rw [hnot] at hinit
      cases hinit
  | notOpened _ hopen' hfd' =>
      rw [hopen] at hopen'
      cases hopen'
      omega
  | notRead _ hopen' _ hread' =>
      rw [hopen] at hopen'
      cases hopen'
      rw [hread] at hread'
      cases hread'
  | notLoaded _ hopen' _ hread' hloads hcode =>
      rw [hopen] at hopen'
      cases hopen'
      rw [hread] at hread'
      cases hread'
      obtain ⟨hnone, hpid, hframes, hnot⟩ :=
        (unchanged_notLoaded_iff hsane.table hopen hfd hread hloads).1 hsame
      obtain ⟨asking, last, hasks, hgrow, hload⟩ :=
        hloads.asks hinit hopen hfd hread
      have hdir := hasks.unusedPageDir_eq
      rw [hnone] at hdir
      have hzero : (vmmNewPageDir asking.vm).1 = 0 := by
        rw [vmmNewPageDir_none hdir]
      have hrejected := (loadImage_ok hload).1.resolve_left (not_not.2 hzero)
      have hcard := hasks.card_le hnone hgrow
      rw [loadImage_rejected hrejected] at hload
      cases hload
      rw [hframes] at hcard
      exact ⟨hrejected, hnone, hpid, List.eq_nil_of_length_eq_zero (by omega),
        hnot⟩

theorem Restores.recovers
    (h : k.Restores stdOutFile path given) (hsane : k.Sane given) :
    k.Recovers stdOutFile path given where
  opened fd opened hinit hopen hfd :=
    (unchanged_notOpened_iff hopen hfd).1
      (h.1 _ (Returns.notOpened hinit hopen hfd).createProcess)
  read fd opened image read hinit hopen hfd hread := by
    rintro rfl
    exact not_unchanged_notRead hopen hfd hread
      (h.1 _ (Returns.notRead hinit hopen hfd hread).createProcess)
  loaded image ready vm hasks hobtains hgrow := by
    have haccepts : Elf.Accepts image := by
      by_contra hnot
      have hcode := h.not_failed hsane hasks hobtains hgrow
        (loadImage_rejected hnot _ _)
      omega
    refine ⟨haccepts, fun performed rest mid hout => ?_⟩
    obtain ⟨entryPoint, next, hload⟩ :=
      loadImage_runsOut hobtains.pageDir haccepts hout
    have hcode := h.not_failed hsane hasks hobtains hgrow hload
    omega
  refused image ready hasks hlacks := h.refused hsane hasks hlacks

/-- A load that fails leaves everything as it was. -/
theorem Recovers.unchanged_notLoaded
    (h : k.Recovers stdOutFile path given) (hsane : k.Sane given)
    {address pageDir pid entryPoint : ℕ} {table : Option ℕ}
    {equipped : Kernel Device} {vm : Vm} {code : ℤ}
    (hinit : k.isInitProcess = true)
    (hopen : k.openImage stdOutFile path given = .ok (fd, opened))
    (hfd : 0 ≤ fd)
    (hread : opened.readImage fd given = .ok (some image, read))
    (hloads : (read.useTable k.vfs.vfsFdTable).Loads image given address pageDir
      pid table equipped code entryPoint vm)
    (hcode : code ≠ 0) :
    k.Unchanged { equipped with vm := vm } := by
  obtain ⟨ready, last, hasks, hgrow, hload⟩ := hloads.asks hinit hopen hfd hread
  by_cases hobtains : ready.Obtains given
  · obtain ⟨haccepts, hnever⟩ := h.loaded _ _ _ hasks hobtains hgrow
    rcases loadImage_code haccepts hload with
      hzero | ⟨performed, rest, mid, hout⟩
    · exact absurd hzero hcode
    · exact absurd hout (hnever performed rest mid)
  · obtain ⟨hrejected, hnone, hpid, hgrown, hnot⟩ := h.refused _ _ hasks hobtains
    refine (unchanged_notLoaded_iff hsane.table hopen hfd hread hloads).2
      ⟨hnone, hpid, ?_, hnot⟩
    obtain ⟨hvm, htable⟩ := hasks.vm_eq hgrown
    rw [hvm, htable, vmmNewPageDir_none hnone] at hgrow
    cases hgrow
    rw [loadImage_rejected hrejected] at hload
    cases hload
    rfl

theorem Recovers.restores
    (h : k.Recovers stdOutFile path given) (hsane : k.Sane given) :
    k.Restores stdOutFile path given := by
  constructor
  · intro next hcall
    cases createProcess_returns hcall with
    | notInitialised hinit => exact ⟨rfl, rfl, rfl, rfl, rfl, rfl, rfl⟩
    | notOpened hinit hopen hfd =>
        exact (unchanged_notOpened_iff hopen hfd).2 (h.opened _ _ hinit hopen hfd)
    | notRead hinit hopen hfd hread =>
        exact absurd rfl (h.read _ _ _ _ hinit hopen hfd hread)
    | notLoaded hinit hopen hfd hread hloads hcode =>
        exact h.unchanged_notLoaded hsane hinit hopen hfd hread hloads hcode
  · intro image ready hasks hlacks
    obtain ⟨hrejected, -, -, hgrown, -⟩ := h.refused _ _ hasks hlacks
    have htable := (hasks.vm_eq hgrown).2
    have hgrow : given.tablePages.foldlM Heap.mapHeapPage
        (vmmNewPageDir ready.vm).2 = .ok (vmmNewPageDir ready.vm).2 := by
      rw [htable]
      rfl
    obtain ⟨fd, opened, read, address, table, pid, equipped, hopen, hfd, hread,
      hloads⟩ := hasks.loads hgrow (loadImage_rejected hrejected _ _)
    exact ⟨_, (Returns.notLoaded hasks.initialised hopen hfd hread hloads
      (by norm_num)).createProcess⟩

theorem openImage_missing
    {ops : VfsOps Device} {current : ℕ}
    (hmounted : k.vfs.vfsCurrentFs = some ops)
    (hpointer : k.kernelFdTable = some current)
    (hmissing : ops.fileExists k.vfs.device path = .ok false)
    (hpages : given.openPages = []) (stdOutFile : ℕ) :
    k.openImage stdOutFile path given = .ok (-1, k.useTable k.kernelFdTable) ∧
      ¬k.FillsStdout path given := by
  have hfind : Vfs.findOrCreate ops k.vfs.device path Vfs.oRdonly =
      .ok (false, k.vfs.device) := by
    unfold Vfs.findOrCreate
    simp only [hmissing, bind, Except.bind, Vfs.oRdonly, Nat.zero_and, if_true]
    rfl
  constructor
  · unfold openImage growHeap Vfs.vfsOpen Vfs.vfsFileOpen useTable
    rw [hpages, hpointer]
    simp only [List.foldlM_nil, bind, Except.bind, pure, Except.pure]
    rw [hmounted]
    simp only [hfind, if_true]
  · rintro ⟨-, -, -, -, -, ⟨other, device, hother, hfinds⟩, -⟩
    have hother : k.vfs.vfsCurrentFs = some other := hother
    rw [hmounted, Option.some.injEq] at hother
    subst hother
    have hfinds : Vfs.findOrCreate ops k.vfs.device path Vfs.oRdonly =
        .ok (true, device) := hfinds
    rw [hfind, Except.ok.injEq, Prod.mk.injEq] at hfinds
    exact Bool.false_ne_true hfinds.1

/-- The kernel of the sample with a FAT32 volume, with the idle process and with
two descriptor tables.  The first one is `kernel_fd_table`. -/
def idleKernel (vfsFdTable : ℕ) : Kernel Fat32.Volume where
  vfs := { Vfs.volumeTable.setTable 0xD0003000 ⟨fun _ => none, 0⟩ with
    vfsFdTable := some vfsFdTable }
  kernelFdTable := some 0xD0000020
  vm := sampleBoot
  isInitProcess := true
  processHead := 0xD0001000
  currentProcessRunning := 0xD0001000
  processes address :=
    if address = 0xD0001000 then
      some ⟨0, .idle, 0, none, 0, .zero, none, none⟩
    else none
  pidBitmap := fun _ => 0

/-- What a heap that need not grow gives to a call. -/
def roomyHeap (memory : ByteStore) : Allocations where
  file := some 0xD0004000
  image := some 0xD0005000
  process := some 0xD0006000
  table := some 0xD0007000
  openPages := []
  readPages := []
  processPages := []
  tablePages := []
  memory := memory

theorem idleKernel_list (vfsFdTable : ℕ) :
    Scheduler.ProcessList (idleKernel vfsFdTable).scheduler [] where
  initialised := rfl
  list := ⟨_, rfl, rfl⟩
  nodup := List.nodup_singleton _
  bounded p hp := by
    rw [List.mem_singleton.1 hp]
    change 0xD0001000 < 4294967296
    norm_num
  current := List.mem_singleton_self _

theorem idleKernel_sane (vfsFdTable : ℕ) (memory : ByteStore) :
    (idleKernel vfsFdTable).Sane (roomyHeap memory) where
  table := by
    rintro address ⟨rfl⟩
    rfl
  process := by
    rintro address ⟨rfl⟩
    exact ⟨rfl, by decide⟩
  list _ := ⟨[], idleKernel_list vfsFdTable⟩

/-- There is no `/x` on the volume. -/
theorem idleKernel_missing (vfsFdTable : ℕ) (memory : ByteStore) :
    (idleKernel vfsFdTable).openImage 0xC0108000 [47, 120]
        (roomyHeap memory) =
          .ok (-1, (idleKernel vfsFdTable).useTable (some 0xD0000020)) ∧
      ¬(idleKernel vfsFdTable).FillsStdout [47, 120] (roomyHeap memory) := by
  have htest : (Fat32.fat32FileExists Fat32.twoFiles [47, 120]).satisfies
      (fun found => !found) = true := by
    decide +kernel
  obtain ⟨found, hfound, hfalse⟩ := Outcome.exists_of_satisfies htest
  rw [Bool.not_eq_true'] at hfalse
  rw [hfalse] at hfound
  have hmounted : (idleKernel vfsFdTable).vfs.vfsCurrentFs =
      some vfsFat32Ops := rfl
  exact openImage_missing hmounted rfl hfound rfl 0xC0108000

end Kernel

/-! ## The first process -/

namespace Fat32

/-- A FAT32 volume whose root directory holds the image `x`. -/
def imageVolume : Volume :=
  initFat32 ((ByteStore.ofWords [
    (12, 0x00010102), (16, 0x10000001), (36, 1), (44, 2),
    (520, 0x0FFFFFFF), (524, 0x0FFFFFFF),
    (1024, 0x20202058), (1028, 0x20202020), (1032, 0x20202020),
    (1048, 0x00030000), (1052, 92)]).blit 1536 (Elf.sampleImage 0x8048000) 92)
    (fun _ => 0)

def sampleBytes : List UInt8 :=
  (List.range 92).map (Elf.sampleImage 0x8048000)

theorem sampleBytes_length : sampleBytes.length = 92 := by
  simp [sampleBytes]

theorem image_values :
    (findFile imageVolume [47, 120]).satisfies (fun found =>
        found.any (fun pair => decide (pair.1.size = sampleBytes.length ∧
          pair.1.firstCluster = 3))) = true ∧
      (readCluster imageVolume 3).satisfies (fun loaded =>
        decide (sampleBytes.length ≤ loaded.size) &&
          (List.range sampleBytes.length).all (fun k =>
            decide (loaded.bytes k = bytesOf sampleBytes k))) = true ∧
      (getNextCluster imageVolume 3).satisfies (fun _ => true) = true ∧
      (fat32FileSize imageVolume [47, 120]).satisfies
        (fun size => decide (size = 92)) = true ∧
      (fat32FileExists imageVolume [47, 120]).satisfies
        (fun found => found) = true := by
  decide +kernel

theorem readsWhole_image :
    driver.ReadsWhole imageVolume [47, 120] sampleBytes := by
  obtain ⟨hfound, hloaded, hlast, -⟩ := image_values
  refine @readsWhole_single imageVolume [47, 120] 3 sampleBytes (by decide) ?_
    hfound hloaded hlast
  rw [sampleBytes_length]
  norm_num

theorem fileSize_image : fat32FileSize imageVolume [47, 120] = .ok 92 := by
  obtain ⟨size, hsize, hvalue⟩ :=
    Outcome.exists_of_satisfies image_values.2.2.2.1
  rw [hsize, of_decide_eq_true hvalue]

theorem fileExists_image : fat32FileExists imageVolume [47, 120] = .ok true := by
  obtain ⟨found, hfound, htrue⟩ :=
    Outcome.exists_of_satisfies image_values.2.2.2.2
  rw [hfound, htrue]

/-- The bytes are those of the image, behind which there are zeros. -/
theorem sampleBytes_blit :
    ByteStore.blit (fun _ => 0) 0 (bytesOf sampleBytes) 92 =
      Elf.sampleImage 0x8048000 := by
  funext i
  rcases Nat.lt_or_ge i 92 with hlow | hhigh
  · rw [ByteStore.blit_inside _ _ (Nat.zero_le i) (by omega), Nat.sub_zero]
    simp [bytesOf, sampleBytes, List.getD, hlow]
  · rw [ByteStore.blit_outside _ _ (by omega)]
    unfold Elf.sampleImage
    rw [List.getD_eq_getElem?_getD, List.getElem?_eq_none hhigh]
    rfl

end Fat32

namespace Memory

theorem firstDirectory_refills :
    Elf.Refills (addPageDir sampleBoot 1) (addPageDir sampleBoot 1).word where
  kept _ _ := rfl
  bounded frame hframe j := by
    obtain ⟨-, hlow, -, -⟩ := Frames.mem_free.1 hframe
    rw [firstDirectory_other (fun hdir =>
      absurd (sampleBoot_layout.frame_lt _ hdir) (not_lt.2 hlow)) j]
    norm_num

end Memory

namespace Kernel

def loadingKernel : Kernel Fat32.Volume :=
  { idleKernel 0xD0000020 with
    vfs := { (idleKernel 0xD0000020).vfs with device := Fat32.imageVolume } }

theorem loadingKernel_findOrCreate : Vfs.findOrCreate vfsFat32Ops
    Fat32.imageVolume [47, 120] Vfs.oRdonly = .ok (true, Fat32.imageVolume) := by
  have hexists : vfsFat32Ops.fileExists Fat32.imageVolume [47, 120] = .ok true :=
    Fat32.fileExists_image
  unfold Vfs.findOrCreate
  simp only [hexists, bind, Except.bind, if_true]
  rfl

theorem loadingKernel_newFile : Vfs.newFile vfsFat32Ops Fat32.imageVolume
    [47, 120] Vfs.oRdonly =
      .ok (⟨[47, 120], 0, 92, Vfs.oRdonly, 1⟩, Fat32.imageVolume) := by
  have hsize : vfsFat32Ops.size Fat32.imageVolume [47, 120] = .ok 92 :=
    Fat32.fileSize_image
  unfold Vfs.newFile Vfs.startPosition
  simp only [hsize, bind, Except.bind, Vfs.oRdonly, Nat.zero_and]
  rfl

theorem loadingKernel_open (memory : ByteStore) :
    ∃ vfs, loadingKernel.openImage 0xC0108000 [47, 120] (roomyHeap memory) =
        .ok (3, { loadingKernel with vfs := vfs }) ∧
      vfs.OpenOn Fat32.driver 3 0xD0004000
        ⟨[47, 120], 0, 92, Vfs.oRdonly, u32 (1 + 1)⟩ Fat32.sampleBytes ∧
      vfs.vfsFdTable = some 0xD0000020 ∧ ∃ table,
        vfs.tables 0xD0000020 = some table := by
  unfold openImage growHeap Vfs.vfsOpen Vfs.vfsFileOpen
  have hmounted : (loadingKernel.useTable
    loadingKernel.kernelFdTable).vfs.vfsCurrentFs = some vfsFat32Ops := rfl
  have htable : (loadingKernel.useTable
    loadingKernel.kernelFdTable).vfs.vfsFdTable = some 0xD0000020 := rfl
  have hdevice : (loadingKernel.useTable
    loadingKernel.kernelFdTable).vfs.device = Fat32.imageVolume := rfl
  have hgiven : (roomyHeap memory).file = some 0xD0004000 := rfl
  have hpages : (roomyHeap memory).openPages = [] := rfl
  simp only [hpages, List.foldlM_nil, bind, Except.bind, pure, Except.pure,
    htable, hmounted, hdevice, loadingKernel_findOrCreate, hgiven,
    loadingKernel_newFile]
  exact ⟨_, rfl, ⟨rfl, rfl, rfl, Fat32.readsWhole_image⟩, rfl, _, rfl⟩

theorem loadingKernel_read :
    ∃ vfs opened, loadingKernel.openImage 0xC0108000 [47, 120]
        (roomyHeap fun _ => 0) = .ok (3, opened) ∧
      opened.readImage 3 (roomyHeap fun _ => 0) =
        .ok (some (Elf.sampleImage 0x8048000),
          { loadingKernel with vfs := vfs }) := by
  obtain ⟨vfs, hopen, hready, htable, table, hslots⟩ :=
    loadingKernel_open fun _ => 0
  have hsize : vfs.vfsSize 3 = .ok 92 := by
    unfold Vfs.vfsSize
    simp only [hready.slot, Vfs.object_of_openOn hready, bind, Except.bind]
    rfl
  have hread := vfsRead_openOn hready (fun _ => 0) 92
  rw [if_neg (by decide)] at hread
  rw [Fat32.sampleBytes_length, Fat32.sampleBytes_blit,
    if_pos (by decide)] at hread
  obtain ⟨closed, hclose⟩ := Vfs.vfsClose_ok (s := vfs.setObject 0xD0004000
    ⟨[47, 120], u32 (0 + 92), 92, Vfs.oRdonly, u32 (1 + 1)⟩) htable hready.slot
    hslots (Vfs.setObject_objects _ _ _)
  refine ⟨closed, _, hopen, ?_⟩
  unfold readImage growHeap
  have himage : (roomyHeap fun _ => 0).image = some 0xD0005000 := rfl
  have hpages : (roomyHeap fun _ => 0).readPages = [] := rfl
  have hmemory : (roomyHeap fun _ => 0).memory = fun _ => 0 := rfl
  simp only [hsize, himage, hpages, hmemory, List.foldlM_nil, bind,
    Except.bind, pure, Except.pure, hread, hclose]
  rfl

theorem loadingKernel_loads
    {k : Kernel Fat32.Volume} (hvm : k.vm = sampleBoot) :
    ∃ table pid equipped entryPoint vm, k.Loads (Elf.sampleImage 0x8048000)
      (roomyHeap fun _ => 0) 0xD0006000 0xC0201000 pid table equipped 0
        entryPoint vm := by
  obtain ⟨table, pid, equipped, hequip, hmemory⟩ : ∃ table pid equipped,
      k.equip (roomyHeap fun _ => 0) = .ok (0xC0201000, table, pid, equipped) ∧
        equipped.vm = addPageDir sampleBoot 1 := by
    unfold equip growHeap
    have hfirst : (roomyHeap fun _ => 0).processPages = [] := rfl
    have hlast : (roomyHeap fun _ => 0).tablePages = [] := rfl
    simp only [hfirst, hlast, hvm, List.foldlM_nil, bind, Except.bind, pure,
      Except.pure, vmmNewPageDir_some sampleBoot_unused]
    exact ⟨_, _, _, rfl, rfl⟩
  have hneeded : Elf.framesNeeded (Elf.loadScript (Elf.sampleImage 0x8048000))
      ∅ ≤ (addPageDir sampleBoot 1).frames.free.card := by
    rw [Elf.sampleImage_framesNeeded _ (by decide)]
    exact Elf.firstDirectory_free
  have hright : Elf.LoadsRight (Elf.sampleImage 0x8048000) 0xC0201000
      ⟨memChangePageDir ((addPageDir sampleBoot 1).withWord
        (addPageDir sampleBoot 1).word) 0xC0101000, 0, []⟩ :=
    Elf.WellFormed.loadsRight
      (Elf.sampleImage_wellFormed (by decide : 0x8048000 ∈ Elf.sampleAddresses))
      (VmmRun.apart kernelImage_sample
        (sampleBoot_newPageDir MapsUnused trivial))
      Elf.firstDirectory_fresh hneeded Elf.sampleImage_pagesHold
      firstDirectory_refills
  obtain ⟨next, hload, -⟩ := hright
  refine ⟨table, pid, equipped, next.entryPoint, next.vm, rfl, hequip, ?_⟩
  have hsame : (⟨equipped.vm, 0, []⟩ : Elf.Loader) =
      ⟨memChangePageDir ((addPageDir sampleBoot 1).withWord
        (addPageDir sampleBoot 1).word) 0xC0101000, 0, []⟩ := by
    rw [hmemory]
    rfl
  rw [loadImage_eq _ (.inl (by decide)), hsame, hload]
  rfl

theorem loadingKernel_sane :
    loadingKernel.Sane (roomyHeap fun _ => 0) :=
  have h := idleKernel_sane 0xD0000020 fun _ => 0
  ⟨h.table, h.process, h.list⟩

theorem loadingKernel_creates :
    ∃ next, loadingKernel.createProcess 0xC0108000 [47, 120]
      (roomyHeap fun _ => 0) = .ok (some 0xD0006000, next) := by
  obtain ⟨vfs, opened, hopen, hread⟩ := loadingKernel_read
  obtain ⟨table, pid, equipped, entryPoint, vm, hloads⟩ := loadingKernel_loads
    (k := ({ loadingKernel with vfs := vfs } : Kernel Fat32.Volume).useTable
      loadingKernel.vfs.vfsFdTable) rfl
  obtain ⟨nodes, s, -, happend, -⟩ := loadingKernel_sane.appends rfl
    (readImage_sameRest hopen hread) hloads
  exact ⟨_, (Returns.created rfl hopen (by decide) hread hloads
    happend).createProcess⟩

theorem unusedPid_first : unusedPid (fun _ => 0) = some 1 := by
  have hfirst : List.range' 1 (maxProcesses - 1) =
      1 :: List.range' 2 (maxProcesses - 2) := rfl
  unfold unusedPid
  rw [hfirst]
  exact List.find?_cons_of_pos (by decide)

/-- What the call has when it asks for more. -/
theorem loadingKernel_asks
    {image : ByteStore} {ready : Kernel Fat32.Volume}
    (h : loadingKernel.Asks 0xC0108000 [47, 120] (roomyHeap fun _ => 0) image
      ready) :
    image = Elf.sampleImage 0x8048000 ∧ ready.vm = sampleBoot ∧
      ready.pidBitmap = fun _ => 0 := by
  obtain ⟨vfs, opened, hopen, hread⟩ := loadingKernel_read
  obtain ⟨-, -, fd, opened', read, hopen', -, hread', hready⟩ := h
  rw [hopen, Except.ok.injEq, Prod.mk.injEq] at hopen'
  obtain ⟨rfl, rfl⟩ := hopen'
  rw [hread, Except.ok.injEq, Prod.mk.injEq, Option.some.injEq] at hread'
  obtain ⟨rfl, rfl⟩ := hread'
  cases hready
  exact ⟨rfl, rfl, rfl⟩

end Kernel

end ClOs
