import ClOs.DescriptorRuns

/-!
# Files that `vfs_open` creates and truncates

Both are done by a write of zero bytes, and the byte count of that write is
taken for its success.
-/

namespace ClOs

open ByteStore

variable {Device : Type}

namespace VfsOps

/-- Every path has the same file in two states of a device. -/
structure SameFiles (ops : VfsOps Device) (device device' : Device) :
    Prop where
  fileExists : ∀ path,
    ops.fileExists device' path = ops.fileExists device path
  size : ∀ path, ops.size device' path = ops.size device path
  read : ∀ path buffer offset size,
    ops.read device' path buffer offset size =
      ops.read device path buffer offset size

theorem SameFiles.refl (ops : VfsOps Device) (device : Device) :
    ops.SameFiles device device where
  fileExists _ := rfl
  size _ := rfl
  read _ _ _ _ := rfl

/-- An empty file is found at a path. -/
structure EmptyAt (ops : VfsOps Device) (device : Device) (path : CString) :
    Prop where
  fileExists : ops.fileExists device path = .ok true
  size : ops.size device path = .ok 0

/-- `vfs_current_fs->write(path, NULL, 0, 0)` leaves `device'`. -/
def Empties (ops : VfsOps Device) (device : Device) (path : CString)
    (device' : Device) : Prop :=
  ∃ written, ops.write device path (fun _ => 0) 0 0 = .ok (written, device')

/-- The parent directory of a path exists and has room: the driver can store an
empty file at the path. -/
def HasRoom (ops : VfsOps Device) (device : Device) (path : CString) : Prop :=
  ∃ device', ops.Empties device path device' ∧ ops.EmptyAt device' path

/-- What the two drivers have in common: a write of zero bytes returns 0, and a
file that exists has a size. -/
structure Counting (ops : VfsOps Device) : Prop where
  write : ∀ device path buffer size written device',
    ops.write device path buffer 0 size = .ok (written, device') →
      written = 0
  size : ∀ device path found, ops.fileExists device path = .ok found →
    ∃ size, ops.size device path = .ok size

end VfsOps

/-- The two tables of functions that `vfs_current_fs` can be. -/
inductive Backend : (Device : Type) → VfsOps Device → Prop
  | ext3 : Backend Ext3.Volume vfsExt3Ops
  | fat32 : Backend Fat32.Volume vfsFat32Ops

/-! ## A write of zero bytes -/

namespace Ext3

theorem ext3WriteFile_zero
    {v next : Volume} {path : CString} {buffer : ByteStore} {written : ℕ}
    (hwrite : ext3WriteFile v path buffer 0 = .ok (written, next)) :
    written = 0 := by
  unfold ext3WriteFile at hwrite
  rw [Outcome.bind_eq_ok] at hwrite
  obtain ⟨stored, hstore, hwrite⟩ := hwrite
  cases stored with
  | inl volume =>
      simp only [pure, Except.pure, Except.ok.injEq, Prod.mk.injEq] at hwrite
      exact hwrite.1.symm
  | inr stored =>
      obtain ⟨parent, filename, inodeNum, state⟩ := stored
      have hnone : state.totalWritten = 0 := by
        unfold storeFile at hstore
        rw [Outcome.bind_eq_ok] at hstore
        obtain ⟨⟨directory, name⟩, -, hstore⟩ := hstore
        simp only at hstore
        split_ifs at hstore
        · simp [pure, Except.pure] at hstore
        · rw [Outcome.bind_eq_ok] at hstore
          obtain ⟨⟨gone, deleted⟩, -, hstore⟩ := hstore
          rw [Outcome.bind_eq_ok] at hstore
          obtain ⟨⟨number, numbered⟩, -, hstore⟩ := hstore
          simp only at hstore
          split_ifs at hstore
          · simp [pure, Except.pure] at hstore
          · rw [Outcome.bind_eq_ok] at hstore
            obtain ⟨last, hblocks, hstore⟩ := hstore
            simp only [pure, Except.pure, Except.ok.injEq, Sum.inr.injEq,
              Prod.mk.injEq] at hstore
            rw [writeBlocks, if_pos (Nat.zero_le _)] at hblocks
            simp only [pure, Except.pure, Except.ok.injEq] at hblocks
            rw [← hstore.2.2.2, ← hblocks]
      simp only at hwrite
      rw [Outcome.bind_eq_ok] at hwrite
      obtain ⟨recorded, -, hwrite⟩ := hwrite
      rw [Outcome.bind_eq_ok] at hwrite
      obtain ⟨created, -, hwrite⟩ := hwrite
      simp only [pure, Except.pure, Except.ok.injEq, Prod.mk.injEq] at hwrite
      rw [← hwrite.1, hnone]

theorem vfsExt3Ops_counting : vfsExt3Ops.Counting where
  write _ _ _ _ _ _ hwrite := ext3WriteFile_zero hwrite
  size device path found hfound := by
    change ext3FileExists device path = .ok found at hfound
    unfold ext3FileExists at hfound
    rw [Outcome.bind_eq_ok] at hfound
    obtain ⟨file, hfile, -⟩ := hfound
    change ∃ size, ext3FileSize device path = .ok size
    unfold ext3FileSize
    simp only [hfile, bind, Except.bind]
    cases file with
    | none => exact ⟨0, rfl⟩
    | some pair => exact ⟨pair.1.size, rfl⟩

end Ext3

namespace Fat32

theorem fat32WriteFile_zero
    {v next : Volume} {path : CString} {buffer : ByteStore} {written : ℕ}
    (hwrite : fat32WriteFile v path buffer 0 = .ok (written, next)) :
    written = 0 := by
  unfold fat32WriteFile at hwrite
  rw [Outcome.bind_eq_ok] at hwrite
  obtain ⟨⟨parentCluster, filename⟩, -, hwrite⟩ := hwrite
  simp only at hwrite
  split_ifs at hwrite
  · simp only [pure, Except.pure, Except.ok.injEq, Prod.mk.injEq] at hwrite
    exact hwrite.1.symm
  · rw [Outcome.bind_eq_ok] at hwrite
    obtain ⟨⟨gone, deleted⟩, -, hwrite⟩ := hwrite
    rw [Outcome.bind_eq_ok] at hwrite
    obtain ⟨count, -, hwrite⟩ := hwrite
    rw [Outcome.bind_eq_ok] at hwrite
    obtain ⟨⟨chain, taken⟩, -, hwrite⟩ := hwrite
    cases chain with
    | none =>
        simp only [pure, Except.pure, Except.ok.injEq,
          Prod.mk.injEq] at hwrite
        exact hwrite.1.symm
    | some chain =>
        obtain ⟨first, last⟩ := chain
        simp only at hwrite
        rw [Outcome.bind_eq_ok] at hwrite
        obtain ⟨ended, -, hwrite⟩ := hwrite
        rw [Outcome.bind_eq_ok] at hwrite
        obtain ⟨⟨stored, volume⟩, hstored, hwrite⟩ := hwrite
        rw [Outcome.bind_eq_ok] at hwrite
        obtain ⟨created, -, hwrite⟩ := hwrite
        simp only [pure, Except.pure, Except.ok.injEq,
          Prod.mk.injEq] at hwrite
        rw [writeClusters, if_neg (by omega)] at hstored
        simp only [pure, Except.pure, Except.ok.injEq,
          Prod.mk.injEq] at hstored
        rw [← hwrite.1, ← hstored.1]

/-- Without a parent directory nothing is written. -/
theorem fat32WriteFile_noParent
    {v : Volume} {path filename : CString}
    (hparent : resolveParentDirectory v path = .ok (0, filename))
    (buffer : ByteStore) (size : ℕ) :
    fat32WriteFile v path buffer size = .ok (0, v) := by
  unfold fat32WriteFile
  simp only [hparent, bind, Except.bind, ↓reduceIte]
  rfl

theorem vfsFat32Ops_counting : vfsFat32Ops.Counting where
  write _ _ _ _ _ _ hwrite := fat32WriteFile_zero hwrite
  size device path found hfound := by
    change fat32FileExists device path = .ok found at hfound
    unfold fat32FileExists at hfound
    rw [Outcome.bind_eq_ok] at hfound
    obtain ⟨file, hfile, -⟩ := hfound
    change ∃ size, fat32FileSize device path = .ok size
    unfold fat32FileSize
    simp only [hfile, bind, Except.bind]
    cases file with
    | none => exact ⟨0, rfl⟩
    | some pair => exact ⟨pair.1.size, rfl⟩

end Fat32

theorem Backend.counting {ops : VfsOps Device} (h : Backend Device ops) :
    ops.Counting := by
  cases h with
  | ext3 => exact Ext3.vfsExt3Ops_counting
  | fat32 => exact Fat32.vfsFat32Ops_counting

/-! ## What the call leaves on the device -/

namespace Vfs

variable {ops : VfsOps Device} {s next : Vfs Device}
  {stdOutFile current address i : ℕ} {table : FdTable} {path : CString}
  {flags : ℕ} {allocated : Option ℕ} {result : ℤ} {device : Device}

/-- A driver is mounted, a descriptor table is in use, and the static object
for the standard output is there. -/
structure Ready (s : Vfs Device) (ops : VfsOps Device)
    (stdOutFile current : ℕ) (table : FdTable) : Prop where
  mounted : s.vfsCurrentFs = some ops
  inUse : s.vfsFdTable = some current
  table : s.tables current = some table
  stdout : (s.objects stdOutFile).isSome = true

theorem retain_of_isSome
    (h : (s.objects address).isSome = true) :
    ∃ file, s.retain address = .ok (s.setObject address file) := by
  obtain ⟨file, hfile⟩ := Option.isSome_iff_exists.1 h
  unfold retain
  simp only [object_eq_ok.2 hfile, bind, Except.bind]
  exact ⟨_, rfl⟩

theorem freeSlot_update_stdout (files : ℕ → Option ℕ) (file : Option ℕ)
    (count count' : ℕ) :
    freeSlot ⟨Function.update files stdoutSlot file, count⟩ =
      freeSlot ⟨files, count'⟩ := by
  refine List.find?_congr fun i hi => ?_
  have hlow := (List.mem_range'_1.1 hi).1
  have hne : i ≠ stdoutSlot := by
    unfold stdoutSlot
    omega
  dsimp only
  rw [Function.update_of_ne hne]

theorem installStdout_of_isSome
    (htable : s.tables current = some table)
    (hstdout : (s.objects stdOutFile).isSome = true) :
    ∃ next installed, s.installStdout stdOutFile current = .ok next ∧
      next.device = s.device ∧ next.tables current = some installed ∧
      freeSlot installed = freeSlot table ∧
      ∀ a, (s.objects a).isSome = true →
        (next.objects a).isSome = true := by
  by_cases hfree : table.files stdoutSlot = none
  · have hpresent : ((s.setTable current
        { files := Function.update table.files stdoutSlot (some stdOutFile)
          count := u32 (table.count + 1) }).objects
            stdOutFile).isSome = true := hstdout
    obtain ⟨file, hretain⟩ := retain_of_isSome hpresent
    have hok : s.installStdout stdOutFile current =
        .ok ((s.setTable current
          { files := Function.update table.files stdoutSlot (some stdOutFile)
            count := u32 (table.count + 1) }).setObject stdOutFile file) := by
      unfold Vfs.installStdout
      simp only [fdTable_eq_ok.2 htable, bind, Except.bind, if_pos hfree]
      exact hretain
    refine ⟨_, _, hok, rfl, Function.update_self _ _ _,
      freeSlot_update_stdout table.files (some stdOutFile) _ _, ?_⟩
    intro a ha
    by_cases hsame : a = stdOutFile
    · subst hsame
      simp [setObject]
    · simpa [setObject, setTable, hsame] using ha
  · refine ⟨s, table, ?_, rfl, htable, rfl, fun _ ha => ha⟩
    unfold Vfs.installStdout
    simp only [fdTable_eq_ok.2 htable, bind, Except.bind, if_neg hfree]
    rfl

theorem vfsFdAlloc_of_isSome
    (htable : s.tables current = some table)
    (hstdout : (s.objects stdOutFile).isSome = true)
    (haddress : (s.objects address).isSome = true) :
    ∃ result next, s.vfsFdAlloc stdOutFile current address =
        .ok (result, next) ∧ next.device = s.device ∧
      (result = -1 ↔ freeSlot table = none) := by
  obtain ⟨middle, installed, hok, hdevice, hmiddle, hfree, hobjects⟩ :=
    installStdout_of_isSome htable hstdout
  unfold Vfs.vfsFdAlloc
  simp only [hok, fdTable_eq_ok.2 hmiddle, bind, Except.bind]
  cases hslot : freeSlot installed with
  | none =>
      rw [hslot] at hfree
      exact ⟨-1, middle, rfl, hdevice, iff_of_true rfl hfree.symm⟩
  | some i =>
      rw [hslot] at hfree
      have hpresent : ((middle.setTable current
          { files := Function.update installed.files i (some address)
            count := u32 (installed.count + 1) }).objects
              address).isSome = true := hobjects address haddress
      obtain ⟨file, hretain⟩ := retain_of_isSome hpresent
      simp only [hretain]
      refine ⟨i, _, rfl, hdevice, iff_of_false (by omega) ?_⟩
      rw [← hfree]
      exact Option.some_ne_none i

/-- The object of a new descriptor is made without a write, or with one write
of zero bytes. -/
theorem newFile_device
    {file : VfsFile} {device' : Device}
    (h : newFile ops device path flags = .ok (file, device')) :
    device' = device ∨
      (flags &&& oTrunc ≠ 0 ∧ path.length < 256 ∧
        ops.Empties device path device') := by
  unfold newFile at h
  split_ifs at h with hlong htrunc
  · rw [Outcome.bind_eq_ok] at h
    obtain ⟨position, -, h⟩ := h
    rw [Outcome.bind_eq_ok] at h
    obtain ⟨size, -, h⟩ := h
    rw [Outcome.bind_eq_ok] at h
    obtain ⟨⟨written, left⟩, hwrite, h⟩ := h
    simp only [pure, Except.pure, Except.ok.injEq, Prod.mk.injEq] at h
    obtain ⟨-, rfl⟩ := h
    exact .inr ⟨htrunc, by omega, written, hwrite⟩
  · rw [Outcome.bind_eq_ok] at h
    obtain ⟨position, -, h⟩ := h
    rw [Outcome.bind_eq_ok] at h
    obtain ⟨size, -, h⟩ := h
    simp only [pure, Except.pure, Except.ok.injEq, Prod.mk.injEq] at h
    exact .inl h.2.symm

theorem newFile_truncates
    (hcounting : ops.Counting) (htrunc : flags &&& oTrunc ≠ 0)
    (hshort : path.length < 256) {found : Bool}
    (hfound : ops.fileExists device path = .ok found) {device' : Device}
    (hempty : ops.Empties device path device') :
    ∃ file, newFile ops device path flags = .ok (file, device') := by
  obtain ⟨size, hsize⟩ := hcounting.size _ _ _ hfound
  obtain ⟨written, hwrite⟩ := hempty
  unfold newFile startPosition
  rw [if_neg (by omega : ¬256 ≤ path.length)]
  by_cases happend : flags &&& oAppend ≠ 0
  · simp only [if_pos happend, if_pos htrunc, hsize, hwrite, bind,
      Except.bind]
    exact ⟨_, rfl⟩
  · simp only [if_neg happend, if_pos htrunc, hsize, hwrite, bind,
      Except.bind]
    exact ⟨_, rfl⟩

/-- `vfs_open` of a path that is missing is to return a descriptor on a new empty
file if the flags say so and there is room, and `vfs_open` that fails is to
leave every path as it was. -/
structure OpensOrKeeps (s : Vfs Device) (ops : VfsOps Device)
    (stdOutFile : ℕ) (path : CString) (flags : ℕ) (allocated : Option ℕ) :
    Prop where
  creates : ops.fileExists s.device path = .ok false →
    flags &&& oCreat ≠ 0 → ops.HasRoom s.device path →
      ∃ fd next, s.vfsOpen stdOutFile (some path) flags allocated =
          .ok (fd, next) ∧ 0 ≤ fd ∧ ops.EmptyAt next.device path
  keeps : ∀ next, s.vfsOpen stdOutFile (some path) flags allocated =
      .ok (-1, next) → ops.SameFiles s.device next.device

/-- The calls that write zero bytes and give out no descriptor: the path is
missing and to be created, or it is to be truncated and no slot is free. -/
def WritesInVain (s : Vfs Device) (ops : VfsOps Device) (table : FdTable)
    (path : CString) (flags : ℕ) (allocated : Option ℕ) : Prop :=
  (ops.fileExists s.device path = .ok false ∧ flags &&& oCreat ≠ 0) ∨
    (ops.fileExists s.device path = .ok true ∧ flags &&& oTrunc ≠ 0 ∧
      path.length < 256 ∧ allocated.isSome = true ∧ freeSlot table = none)

theorem Ready.vfsFdAlloc
    (hready : s.Ready ops stdOutFile current table) (device : Device)
    (address : ℕ) (file : VfsFile) :
    ∃ result next, ({ s with device := device }.setObject address
        file).vfsFdAlloc stdOutFile current address = .ok (result, next) ∧
      next.device = device ∧ (result = -1 ↔ freeSlot table = none) := by
  refine vfsFdAlloc_of_isSome (s := { s with device := device }.setObject
    address file) hready.table ?_ ?_
  · by_cases hsame : stdOutFile = address
    · subst hsame
      simp [setObject]
    · simpa [setObject, hsame] using hready.stdout
  · simp [setObject]

theorem Ready.creates_vain
    (hready : s.Ready ops stdOutFile current table)
    (hcounting : ops.Counting)
    (hmissing : ops.fileExists s.device path = .ok false)
    (hcreat : flags &&& oCreat ≠ 0)
    (hempty : ops.Empties s.device path device) (allocated : Option ℕ) :
    s.vfsOpen stdOutFile (some path) flags allocated =
      .ok (-1, { s with device := device }) := by
  obtain ⟨written, hwrite⟩ := hempty
  obtain rfl := hcounting.write _ _ _ _ _ _ hwrite
  have hfound : findOrCreate ops s.device path flags =
      .ok (false, device) := by
    unfold findOrCreate
    simp only [hmissing, hwrite, if_neg hcreat, bind, Except.bind]
    rfl
  rw [vfsOpen_eq hready.inUse]
  unfold vfsFileOpen
  simp only [hready.mounted, hfound, bind, Except.bind]
  rfl

theorem findOrCreate_exists
    (hexists : ops.fileExists device path = .ok true) :
    findOrCreate ops device path flags = .ok (true, device) := by
  unfold findOrCreate
  simp only [hexists, bind, Except.bind]
  rfl

theorem Ready.truncates_vain
    (hready : s.Ready ops stdOutFile current table)
    (hcounting : ops.Counting)
    (hexists : ops.fileExists s.device path = .ok true)
    (htrunc : flags &&& oTrunc ≠ 0) (hshort : path.length < 256)
    (hfull : freeSlot table = none)
    (hempty : ops.Empties s.device path device) (address : ℕ) :
    ∃ next, s.vfsOpen stdOutFile (some path) flags (some address) =
      .ok (-1, next) ∧ next.device = device := by
  obtain ⟨file, hfile⟩ := newFile_truncates hcounting htrunc hshort hexists
    hempty
  obtain ⟨result, next, halloc, hdevice, hresult⟩ :=
    hready.vfsFdAlloc device address file
  obtain rfl := hresult.2 hfull
  refine ⟨next, ?_, hdevice⟩
  rw [vfsOpen_eq hready.inUse]
  unfold vfsFileOpen
  simp only [hready.mounted, findOrCreate_exists hexists, hfile, bind,
    Except.bind, pure, Except.pure, Bool.true_eq_false, if_false]
  rw [← hready.mounted]
  exact halloc

/-- `vfs_file_open` gets to `kmalloc` with the device as it was, or else has
tried to create the file. -/
theorem findOrCreate_cases
    (hcounting : ops.Counting) {found : Bool} {device' : Device}
    (h : findOrCreate ops device path flags = .ok (found, device')) :
    (found = true ∧ ops.fileExists device path = .ok true ∧
        device' = device) ∨
      (found = false ∧ (device' = device ∨
        ops.fileExists device path = .ok false ∧ flags &&& oCreat ≠ 0 ∧
          ops.Empties device path device')) := by
  unfold findOrCreate at h
  rw [Outcome.bind_eq_ok] at h
  obtain ⟨found', hfound, h⟩ := h
  split_ifs at h with hexists hcreat
  · subst hexists
    simp only [pure, Except.pure, Except.ok.injEq, Prod.mk.injEq] at h
    exact .inl ⟨h.1.symm, hfound, h.2.symm⟩
  · simp only [pure, Except.pure, Except.ok.injEq, Prod.mk.injEq] at h
    exact .inr ⟨h.1.symm, .inl h.2.symm⟩
  · rw [Bool.not_eq_true] at hexists
    subst hexists
    rw [Outcome.bind_eq_ok] at h
    obtain ⟨⟨written, left⟩, hwrite, h⟩ := h
    simp only [pure, Except.pure, Except.ok.injEq, Prod.mk.injEq] at h
    obtain ⟨hresult, rfl⟩ := h
    obtain rfl := hcounting.write _ _ _ _ _ _ hwrite
    exact .inr ⟨hresult.symm, .inr ⟨hfound, hcreat, 0, hwrite⟩⟩

/-- A call that fails has changed nothing on the device, or has written zero
bytes in vain. -/
theorem Ready.vfsOpen_failed
    (hready : s.Ready ops stdOutFile current table)
    (hcounting : ops.Counting)
    (hfailed : s.vfsOpen stdOutFile (some path) flags allocated =
      .ok (-1, next)) :
    next.device = s.device ∨
      (s.WritesInVain ops table path flags allocated ∧
        ops.Empties s.device path next.device) := by
  rw [vfsOpen_eq hready.inUse, Outcome.bind_eq_ok] at hfailed
  obtain ⟨⟨opened, middle⟩, hopen, hfailed⟩ := hfailed
  have hmounted := hready.mounted
  unfold vfsFileOpen at hopen
  split at hopen
  · rename_i hnone
    rw [hmounted] at hnone
    cases hnone
  · rename_i ops' hsome
    rw [hmounted, Option.some.injEq] at hsome
    subst hsome
    rw [Outcome.bind_eq_ok] at hopen
    obtain ⟨⟨found, device⟩, hfound, hopen⟩ := hopen
    simp only at hopen
    rcases findOrCreate_cases hcounting hfound with
      ⟨rfl, hexists, rfl⟩ | ⟨rfl, hcase⟩
    · cases allocated with
      | none =>
          simp only [Bool.true_eq_false, if_false, pure, Except.pure,
            Except.ok.injEq, Prod.mk.injEq] at hopen
          obtain ⟨rfl, rfl⟩ := hopen
          simp only [pure, Except.pure, Except.ok.injEq, Prod.mk.injEq,
            true_and] at hfailed
          rw [← hfailed]
          exact .inl rfl
      | some address =>
          simp only [Bool.true_eq_false, if_false] at hopen
          rw [Outcome.bind_eq_ok] at hopen
          obtain ⟨⟨file, device⟩, hfile, hopen⟩ := hopen
          simp only [pure, Except.pure, Except.ok.injEq,
            Prod.mk.injEq] at hopen
          obtain ⟨rfl, rfl⟩ := hopen
          obtain ⟨result, last, halloc, hdevice, hresult⟩ :=
            hready.vfsFdAlloc device address file
          simp only at hfailed
          rw [halloc, Except.ok.injEq, Prod.mk.injEq] at hfailed
          obtain ⟨hminus, rfl⟩ := hfailed
          have hfull := hresult.1 hminus
          rw [hdevice]
          rcases newFile_device hfile with hsame | ⟨htrunc, hshort, hempty⟩
          · exact .inl hsame
          · exact .inr ⟨.inr ⟨hexists, htrunc, hshort, rfl, hfull⟩, hempty⟩
    · simp only [if_true, pure, Except.pure, Except.ok.injEq,
        Prod.mk.injEq] at hopen
      obtain ⟨rfl, rfl⟩ := hopen
      simp only [pure, Except.pure, Except.ok.injEq, Prod.mk.injEq,
        true_and] at hfailed
      rw [← hfailed]
      rcases hcase with hsame | ⟨hmissing, hcreat, hempty⟩
      · exact .inl hsame
      · exact .inr ⟨.inl ⟨hmissing, hcreat⟩, hempty⟩

/-- The exact condition: a write of zero bytes that is made in vain changes
nothing that a path leads to.  A file that is created is such a change. -/
theorem vfsOpen_opensOrKeeps_iff
    (hbackend : Backend Device ops)
    (hready : s.Ready ops stdOutFile current table)
    (path : CString) (flags : ℕ) (allocated : Option ℕ) :
    s.OpensOrKeeps ops stdOutFile path flags allocated ↔
      (s.WritesInVain ops table path flags allocated →
        ∀ device, ops.Empties s.device path device →
          ops.SameFiles s.device device) := by
  have hcounting := hbackend.counting
  constructor
  · rintro hopens (⟨hmissing, hcreat⟩ |
      ⟨hexists, htrunc, hshort, hallocated, hfull⟩) device hempty
    · exact hopens.keeps _ (hready.creates_vain hcounting hmissing hcreat
        hempty allocated)
    · obtain ⟨address, rfl⟩ := Option.isSome_iff_exists.1 hallocated
      obtain ⟨next, hopen, rfl⟩ := hready.truncates_vain hcounting hexists
        htrunc hshort hfull hempty address
      exact hopens.keeps _ hopen
  · intro hvain
    constructor
    · rintro hmissing hcreat ⟨device, hempty, hcreated⟩
      have hsame := hvain (.inl ⟨hmissing, hcreat⟩) device hempty
      have hboth := hcreated.fileExists
      rw [hsame.fileExists, hmissing, Except.ok.injEq] at hboth
      cases hboth
    · intro next hfailed
      rcases hready.vfsOpen_failed hcounting hfailed with
        hsame | ⟨hwrites, hempty⟩
      · rw [hsame]
        exact .refl ops s.device
      · exact hvain hwrites _ hempty

theorem volumeTable_ready :
    volumeTable.Ready vfsFat32Ops 0xC0108000 0xD0000020
      ⟨fun _ => none, 0⟩ where
  mounted := rfl
  inUse := rfl
  table := rfl
  stdout := rfl

/-- Creating `/g/h` where there is no `/g`. -/
theorem vfsOpen_opensOrKeeps_iff_noParent :
    volumeTable.OpensOrKeeps vfsFat32Ops 0xC0108000 [47, 103, 47, 104]
      oCreat (some 0xD0000500) :=
  (vfsOpen_opensOrKeeps_iff .fat32 volumeTable_ready [47, 103, 47, 104] oCreat
    (some 0xD0000500)).2 (by
    rintro - device ⟨written, hwrite⟩
    have hresolved : (Fat32.resolveParentDirectory Fat32.twoFiles
        [47, 103, 47, 104]).satisfies
          (fun parent => decide (parent = (0, [104]))) = true := by
      decide +kernel
    obtain ⟨parent, hparent, hnone⟩ := Outcome.exists_of_satisfies hresolved
    rw [of_decide_eq_true hnone] at hparent
    have hsame := Fat32.fat32WriteFile_noParent hparent (fun _ => 0) 0
    rw [show Fat32.fat32WriteFile Fat32.twoFiles [47, 103, 47, 104]
        (fun _ => 0) 0 = .ok (written, device) from hwrite, Except.ok.injEq,
      Prod.mk.injEq] at hsame
    rw [hsame.2]
    exact .refl _ _)

/-- Creating `/g` in a root directory with room for it: the call fails, and the
empty file is there afterwards. -/
theorem vfsOpen_creates_vain :
    vfsFat32Ops.fileExists volumeTable.device [47, 103] = .ok false ∧
      vfsFat32Ops.HasRoom volumeTable.device [47, 103] ∧
      (∃ next, volumeTable.vfsOpen 0xC0108000 (some [47, 103]) oCreat
          (some 0xD0000500) = .ok (-1, next) ∧
        vfsFat32Ops.EmptyAt next.device [47, 103]) ∧
      ¬ volumeTable.OpensOrKeeps vfsFat32Ops 0xC0108000 [47, 103] oCreat
        (some 0xD0000500) := by
  have hbefore : (Fat32.fat32FileExists Fat32.twoFiles [47, 103]).satisfies
      (fun found => !found) = true := by
    decide +kernel
  have hafter : (Fat32.fat32WriteFile Fat32.twoFiles [47, 103] (fun _ => 0)
      0).satisfies (fun result =>
        (Fat32.fat32FileExists result.2 [47, 103]).satisfies id &&
          (Fat32.fat32FileSize result.2 [47, 103]).satisfies
            (fun size => decide (size = 0))) = true := by
    decide +kernel
  obtain ⟨found, hmissing, hfalse⟩ := Outcome.exists_of_satisfies hbefore
  rw [Bool.not_eq_true'] at hfalse
  subst hfalse
  obtain ⟨⟨written, device⟩, hwrite, hcreated⟩ :=
    Outcome.exists_of_satisfies hafter
  rw [Bool.and_eq_true] at hcreated
  obtain ⟨hthere, hlength⟩ := hcreated
  obtain ⟨found, hexists, htrue⟩ := Outcome.exists_of_satisfies hthere
  obtain rfl : found = true := htrue
  obtain ⟨size, hsize, hzero⟩ := Outcome.exists_of_satisfies hlength
  obtain rfl := of_decide_eq_true hzero
  have hempty : vfsFat32Ops.Empties volumeTable.device [47, 103] device :=
    ⟨written, hwrite⟩
  have hnew : vfsFat32Ops.EmptyAt device [47, 103] := ⟨hexists, hsize⟩
  have hopen := volumeTable_ready.creates_vain Fat32.vfsFat32Ops_counting
    hmissing (by decide : oCreat &&& oCreat ≠ 0) hempty (some 0xD0000500)
  refine ⟨hmissing, ⟨device, hempty, hnew⟩, ⟨_, hopen, hnew⟩, fun hopens => ?_⟩
  have hsame := (hopens.keeps _ hopen).fileExists [47, 103]
  have hboth := (hnew.fileExists.symm.trans hsame).trans hmissing
  rw [Except.ok.injEq] at hboth
  cases hboth

end Vfs

end ClOs
