import ClOs.Vfs

/-!
# Reads and writes through a descriptor

The drivers read and replace whole files.  What `vfs_read` and `vfs_write` do
to a file is compared here with a transfer at the position of the descriptor.
-/

namespace ClOs

open ByteStore

variable {Device : Type}

@[simp] theorem VfsOps.ofDriver_read
    (driver : Driver Device) (device : Device) (path : CString)
    (buffer : ByteStore) (offset size : ℕ) :
    (VfsOps.ofDriver driver).read device path buffer offset size =
      driver.readFile device path buffer := rfl

@[simp] theorem VfsOps.ofDriver_write
    (driver : Driver Device) (device : Device) (path : CString)
    (buffer : ByteStore) (offset size : ℕ) :
    (VfsOps.ofDriver driver).write device path buffer offset size =
      driver.writeFile device path buffer offset := rfl

def bytesOf (content : List UInt8) : ByteStore := fun k => content.getD k 0

def Driver.ReadsWhole (driver : Driver Device) (device : Device)
    (path : CString) (content : List UInt8) : Prop :=
  ∀ buffer, driver.readFile device path buffer =
    .ok (content.length,
      buffer.blit 0 (bytesOf content) content.length)

/-- There is room for a whole-file write of `count` bytes: the driver reports
them all, and the file it leaves is no longer than that. -/
def Driver.StoresAll (driver : Driver Device) (device : Device)
    (path : CString) (buffer : ByteStore) (count : ℕ) : Prop :=
  ∃ next content,
    driver.writeFile device path buffer count = .ok (count, next) ∧
      driver.ReadsWhole next path content ∧ content.length ≤ count

/-- A descriptor of the current table that is open on a file with the given
content. -/
structure Vfs.OpenOn (s : Vfs Device) (driver : Driver Device) (fd : ℤ)
    (address : ℕ) (file : VfsFile) (content : List UInt8) : Prop where
  mounted : s.vfsCurrentFs = some (.ofDriver driver)
  slot : s.vfsFdGet fd = some address
  object : s.objects address = some file
  content : driver.ReadsWhole s.device file.path content

namespace Vfs

theorem object_of_openOn
    {s : Vfs Device} {driver : Driver Device} {fd : ℤ} {address : ℕ}
    {file : VfsFile} {content : List UInt8}
    (hopen : s.OpenOn driver fd address file content) :
    s.object address = .ok file := by
  simp [object, hopen.object]

@[simp] theorem setObject_objects
    (s : Vfs Device) (address : ℕ) (file : VfsFile) :
    (s.setObject address file).objects address = some file := by
  simp [setObject]

@[simp] theorem setObject_device
    (s : Vfs Device) (address : ℕ) (file : VfsFile) :
    (s.setObject address file).device = s.device := rfl

end Vfs

/-! ## Reading -/

/-- `vfs_read(fd, buffer, count)` is a read of `content` at the position of the
descriptor. -/
def Vfs.ReadsRange (s : Vfs Device) (fd : ℤ) (address : ℕ) (file : VfsFile)
    (buffer : ByteStore) (count : ℕ) (content : List UInt8) : Prop :=
  ∃ filled next after,
    s.vfsRead fd buffer count =
        .ok (min count (content.length - file.position), filled, next) ∧
      (∀ k < min count (content.length - file.position),
        filled k = bytesOf content (file.position + k)) ∧
      (∀ k, count ≤ k → filled k = buffer k) ∧
      next.objects address = some after ∧
      after.position =
        file.position + min count (content.length - file.position) ∧
      after.position ≤ after.size

theorem vfsRead_openOn
    {s : Vfs Device} {driver : Driver Device} {fd : ℤ} {address : ℕ}
    {file : VfsFile} {content : List UInt8}
    (hopen : s.OpenOn driver fd address file content)
    (buffer : ByteStore) (count : ℕ) :
    s.vfsRead fd buffer count = .ok (
      if file.size ≤ file.position then (0, buffer, s)
      else
        (content.length, buffer.blit 0 (bytesOf content) content.length,
          if 0 < content.length then
            s.setObject address { file with
              position := u32 (file.position + content.length) }
          else s)) := by
  unfold Vfs.vfsRead Vfs.vfsFileRead
  simp only [hopen.slot, Vfs.object_of_openOn hopen, hopen.mounted, bind,
    Except.bind]
  by_cases hend : file.size ≤ file.position
  · simp only [hend, if_true]
    rfl
  · simp only [hend, if_false, VfsOps.ofDriver_read, hopen.content buffer]
    rfl

/-- The exact condition under which `vfs_read` reads at the position: with the
position at the recorded size nothing is left to be read, and otherwise the file
is empty or the whole of it is wanted. -/
theorem vfsRead_readsRange_iff
    {s : Vfs Device} {driver : Driver Device} {fd : ℤ} {address : ℕ}
    {file : VfsFile} {content : List UInt8}
    (hopen : s.OpenOn driver fd address file content)
    (buffer : ByteStore) (count : ℕ)
    (hword : content.length < 4294967296) :
    s.ReadsRange fd address file buffer count content ↔
      (file.position = file.size ∧
          (count = 0 ∨ content.length ≤ file.position)) ∨
        (file.position < file.size ∧
          (content.length = 0 ∨
            file.position = 0 ∧ content.length ≤ count ∧
              content.length ≤ file.size)) := by
  unfold Vfs.ReadsRange
  rw [vfsRead_openOn hopen buffer count]
  by_cases hend : file.size ≤ file.position
  · simp only [hend, if_true, Except.ok.injEq, Prod.mk.injEq]
    constructor
    · rintro ⟨_, _, after, ⟨hnone, -, rfl⟩, -, -, hafter, -, hfits⟩
      rw [hopen.object, Option.some.injEq] at hafter
      subst hafter
      exact .inl ⟨by omega, by omega⟩
    · rintro (⟨hsize, hnone⟩ | ⟨hless, -⟩)
      · have hzero : min count (content.length - file.position) = 0 := by
          omega
        rw [hzero]
        exact ⟨buffer, s, file, ⟨rfl, rfl, rfl⟩, by omega, fun _ _ => rfl,
          hopen.object, rfl, hsize.le⟩
      · omega
  · simp only [hend, if_false, Except.ok.injEq, Prod.mk.injEq]
    by_cases hempty : content.length = 0
    · have hnone : min count (content.length - file.position) = 0 := by
        omega
      rw [hnone, if_neg (by omega : ¬0 < content.length)]
      refine iff_of_true ?_ (.inr ⟨by omega, .inl hempty⟩)
      refine ⟨_, s, file, ⟨hempty, rfl, rfl⟩, by omega, ?_, hopen.object, rfl,
        by omega⟩
      intro k _
      exact blit_outside _ _ (by omega)
    · simp only [Nat.pos_of_ne_zero hempty, if_true]
      constructor
      · rintro ⟨_, _, after, ⟨hall, -, rfl⟩, -, -, hafter, hposition, hfits⟩
        rw [Vfs.setObject_objects, Option.some.injEq] at hafter
        subst hafter
        simp only at hposition hfits
        rw [hposition] at hfits
        exact .inr ⟨by omega, .inr ⟨by omega, by omega, by omega⟩⟩
      · rintro (⟨hsize, -⟩ | ⟨-, hnone | ⟨hstart, hwanted, hfits⟩⟩)
        · omega
        · omega
        · have hall : min count (content.length - file.position) =
              content.length := by
            omega
          rw [hall]
          refine ⟨_, _, _, ⟨rfl, rfl, rfl⟩, ?_, ?_,
            Vfs.setObject_objects _ _ _, ?_, ?_⟩
          · intro k hk
            rw [blit_inside _ _ (Nat.zero_le k) (by omega), hstart]
            simp
          · intro k hk
            exact blit_outside _ _ (by omega)
          · simp only [hstart, Nat.zero_add, u32_of_lt hword]
          · simpa only [hstart, Nat.zero_add, u32_of_lt hword] using hfits

namespace Fat32

theorem fat32ReadFile_empty
    {v : Volume} {path : CString} {entry : Entry} {parent : ℕ}
    (hfind : findFile v path = .ok (some (entry, parent)))
    (hsize : entry.size = 0) (buffer : ByteStore) :
    fat32ReadFile v path buffer = .ok (0, buffer) := by
  unfold fat32ReadFile
  simp only [hfind, hsize, bind, Except.bind]
  rw [readClusters, if_neg (by omega)]
  rfl

theorem fat32ReadFile_single
    {v : Volume} {path : CString} {entry : Entry} {parent next : ℕ}
    {loaded : Buffer}
    (hfind : findFile v path = .ok (some (entry, parent)))
    (hcluster : IsCluster entry.firstCluster)
    (hsize : 0 < entry.size)
    (hfits : entry.size ≤ loaded.size)
    (hread : readCluster v entry.firstCluster = .ok loaded)
    (hnext : getNextCluster v entry.firstCluster = .ok next)
    (buffer : ByteStore) :
    fat32ReadFile v path buffer =
      .ok (entry.size, buffer.blit 0 loaded.bytes entry.size) := by
  have hloaded : loaded.size = v.bytesPerCluster := by
    unfold readCluster loadSectors at hread
    rw [Buffer.load_eq_ok] at hread
    rw [← hread.2]
  unfold fat32ReadFile
  simp only [hfind, bind, Except.bind]
  have hfuel : entry.size + chainFuel + 1 =
      (entry.size - 1 + chainFuel) + 1 + 1 := by
    omega
  rw [hfuel, readClusters, if_pos ⟨hcluster, hsize⟩, hread]
  have hchunk : min (entry.size - 0) v.bytesPerCluster = entry.size := by
    omega
  have hslice : loaded.slice 0 entry.size = .ok (loaded.bytes.drop 0) :=
    Buffer.slice_eq_ok.2 ⟨by omega, rfl⟩
  simp only [bind, Except.bind, hchunk, hslice, hnext]
  rw [readClusters, if_neg (by omega)]
  have hdrop : loaded.bytes.drop 0 = loaded.bytes := by
    funext k
    simp
  rw [hdrop, Nat.zero_add]
  rfl

theorem readsWhole_nil
    {v : Volume} {path : CString} {entry : Entry} {parent : ℕ}
    (hfind : findFile v path = .ok (some (entry, parent)))
    (hsize : entry.size = 0) : driver.ReadsWhole v path [] := by
  intro buffer
  have hblit : buffer.blit 0 (bytesOf []) 0 = buffer := by
    funext k
    exact blit_outside _ _ (by omega)
  refine (fat32ReadFile_empty hfind hsize buffer).trans ?_
  rw [List.length_nil, hblit]

theorem readsWhole_single
    {v : Volume} {path : CString} {cluster : ℕ} {content : List UInt8}
    (hcluster : IsCluster cluster) (hpos : 0 < content.length)
    (hfound : (findFile v path).satisfies (fun found =>
      found.any (fun pair => decide (pair.1.size = content.length ∧
        pair.1.firstCluster = cluster))) = true)
    (hloaded : (readCluster v cluster).satisfies (fun loaded =>
      decide (content.length ≤ loaded.size) &&
        (List.range content.length).all (fun k =>
          decide (loaded.bytes k = bytesOf content k))) = true)
    (hlast : (getNextCluster v cluster).satisfies (fun _ => true) = true) :
    driver.ReadsWhole v path content := by
  obtain ⟨⟨entry, parent⟩, hfind, hentry⟩ :=
    Outcome.exists_some_of_satisfies hfound
  obtain ⟨loaded, hread, hbytes⟩ := Outcome.exists_of_satisfies hloaded
  obtain ⟨next, hnext, -⟩ := Outcome.exists_of_satisfies hlast
  obtain ⟨hsize, hfirst⟩ := of_decide_eq_true hentry
  simp only [Bool.and_eq_true, decide_eq_true_eq, List.all_eq_true,
    List.mem_range] at hbytes
  obtain ⟨hfits, hsame⟩ := hbytes
  simp only at hsize hfirst
  intro buffer
  have hfile := fat32ReadFile_single hfind (by rwa [hfirst])
    (by rwa [hsize]) (by rwa [hsize])
    (by rwa [hfirst]) (by rwa [hfirst]) buffer
  rw [hsize] at hfile
  rw [blit_congr buffer hsame] at hfile
  exact hfile

end Fat32

/-- A FAT32 volume whose root directory holds the file `f` with the five bytes
`hello` and the empty file `e`. -/
def Fat32.twoFiles : Fat32.Volume :=
  initFat32 (ByteStore.ofWords [
    (12, 0x00010102), (16, 0x10000001), (36, 1), (44, 2),
    (520, 0x0FFFFFFF), (524, 0x0FFFFFFF), (528, 0x0FFFFFFF),
    (1024, 0x20202046), (1028, 0x20202020), (1032, 0x20202020),
    (1048, 0x00030000), (1052, 5),
    (1056, 0x20202045), (1060, 0x20202020), (1064, 0x20202020),
    (1080, 0x00040000),
    (1536, 0x6C6C6568), (1540, 0x6F)])
    (fun _ => 0)

/-- Descriptor 3 open on a path of that volume. -/
def openFile (path : CString) (position size : ℕ) : VfsFile where
  path := path
  position := position
  size := size
  flags := 2
  refCount := 2

def openVolume (file : VfsFile) : Vfs Fat32.Volume where
  device := Fat32.twoFiles
  vfsCurrentFs := some vfsFat32Ops
  objects address := if address = 1 then some file else none
  tables address :=
    if address = 2 then
      some { files := fun fd => if fd = 3 then some 1 else none, count := 1 }
    else none
  vfsFdTable := some 2
  printed := []

theorem Fat32.readsWhole_twoFiles :
    driver.ReadsWhole twoFiles [47, 102] [104, 101, 108, 108, 111] :=
  @readsWhole_single twoFiles [47, 102] 3 [104, 101, 108, 108, 111]
    (by decide) (by decide) (by decide +kernel) (by decide +kernel)
    (by decide +kernel)

theorem openOn_hello (position : ℕ) :
    (openVolume (openFile [47, 102] position 5)).OpenOn Fat32.driver 3 1
      (openFile [47, 102] position 5) [104, 101, 108, 108, 111] where
  mounted := rfl
  slot := rfl
  object := rfl
  content := Fat32.readsWhole_twoFiles

/-- Reading all of `f` from its start. -/
theorem vfsRead_readsRange_iff_hello :
    (openVolume (openFile [47, 102] 0 5)).ReadsRange 3 1
      (openFile [47, 102] 0 5) (fun _ => 0) 5 [104, 101, 108, 108, 111] :=
  (vfsRead_readsRange_iff (openOn_hello 0) (fun _ => 0) 5 (by decide)).2
    (.inr ⟨by decide, .inr ⟨by decide, by decide, by decide⟩⟩)

/-- At position 2 of `f` a request for one byte stores all five and moves the
position past the end. -/
theorem vfsRead_position :
    (openVolume (openFile [47, 102] 2 5)).OpenOn Fat32.driver 3 1
        (openFile [47, 102] 2 5) [104, 101, 108, 108, 111] ∧
      (∃ filled next after,
        (openVolume (openFile [47, 102] 2 5)).vfsRead 3 (fun _ => 0) 1 =
            .ok (5, filled, next) ∧
          filled 0 = 104 ∧ filled 4 = 111 ∧
          next.objects 1 = some after ∧ after.position = 7) ∧
      ¬(openVolume (openFile [47, 102] 2 5)).ReadsRange 3 1
        (openFile [47, 102] 2 5) (fun _ => 0) 1 [104, 101, 108, 108, 111] := by
  have hopen := openOn_hello 2
  have hread := vfsRead_openOn hopen (fun _ => 0) 1
  rw [if_neg (by decide), if_pos (by decide)] at hread
  refine ⟨hopen, ⟨_, _, _, hread, by decide, by decide, rfl, ?_⟩, ?_⟩
  · change u32 7 = 7
    exact u32_of_lt (by norm_num)
  · rintro ⟨_, _, _, hresult, -⟩
    rw [hread, Except.ok.injEq, Prod.mk.injEq] at hresult
    exact absurd hresult.1 (by decide)

/-! ## Writing -/

/-- Where a write begins: the position of the descriptor, or the end of the file
for `O_APPEND`. -/
def VfsFile.writePosition (file : VfsFile) (content : List UInt8) : ℕ :=
  if file.flags &&& Vfs.oAppend ≠ 0 then content.length else file.position

/-- `content` with the bytes at a position replaced. -/
def overwrite (content : List UInt8) (position : ℕ) (data : List UInt8) :
    List UInt8 :=
  content.take position ++ data ++ content.drop (position + data.length)

/-- `vfs_write(fd, buffer, count)` replaces `count` bytes of `content` at the
position of the descriptor. -/
def Vfs.WritesRange (s : Vfs Device) (driver : Driver Device) (fd : ℤ)
    (address : ℕ) (file : VfsFile) (buffer : ByteStore) (count : ℕ)
    (content : List UInt8) : Prop :=
  ∃ next after,
    s.vfsWrite fd buffer count = .ok (count, next) ∧
      driver.ReadsWhole next.device file.path
        (overwrite content (file.writePosition content)
          ((List.range count).map buffer)) ∧
      next.objects address = some after ∧
      after.position = file.writePosition content + count ∧
      after.size = max content.length (file.writePosition content + count)

theorem length_overwrite
    {content data : List UInt8} {position : ℕ}
    (hposition : position ≤ content.length) :
    (overwrite content position data).length =
      max content.length (position + data.length) := by
  unfold overwrite
  simp only [List.length_append, List.length_take, List.length_drop]
  omega

theorem Driver.ReadsWhole.length_eq
    {driver : Driver Device} {device : Device} {path : CString}
    {first second : List UInt8}
    (hfirst : driver.ReadsWhole device path first)
    (hsecond : driver.ReadsWhole device path second) :
    first.length = second.length := by
  have hsame := (hfirst (fun _ => 0)).symm.trans (hsecond (fun _ => 0))
  rw [Except.ok.injEq, Prod.mk.injEq] at hsame
  exact hsame.1

theorem writePosition_cases (file : VfsFile) (content : List UInt8) :
    file.writePosition content = content.length ∨
      (Vfs.startFile file).position = file.writePosition content := by
  unfold VfsFile.writePosition Vfs.startFile
  split_ifs
  · exact .inl rfl
  · exact .inr rfl

theorem startFile_size (file : VfsFile) :
    (Vfs.startFile file).size = file.size := by
  unfold Vfs.startFile
  split_ifs <;> rfl

/-- A write of as many bytes as the position says moves the position twice as
far. -/
theorem advanceFile_none
    {file : VfsFile}
    (hmoved : (Vfs.advanceFile file file.position).position =
      file.position) :
    file.position = 0 := by
  unfold Vfs.advanceFile at hmoved
  by_contra hne
  rw [if_pos (Nat.pos_of_ne_zero hne)] at hmoved
  simp only at hmoved
  unfold u32 at hmoved
  omega

theorem vfsWrite_openOn
    {s : Vfs Device} {driver : Driver Device} {fd : ℤ} {address : ℕ}
    {file : VfsFile} {content : List UInt8}
    (hopen : s.OpenOn driver fd address file content)
    (hfd : fd ≠ Vfs.fdStdout)
    (buffer : ByteStore) (count : ℕ) {written : ℕ} {device : Device}
    (hwrite : driver.writeFile s.device file.path buffer
      (Vfs.startFile file).position = .ok (written, device)) :
    s.vfsWrite fd buffer count = .ok (written,
      { s with device := device }.setObject address
        (Vfs.advanceFile (Vfs.startFile file) written)) := by
  have htable : s.vfsFdTable ≠ none := by
    intro hnone
    have hslot := hopen.slot
    simp [Vfs.vfsFdGet, hnone] at hslot
  have hpath : (Vfs.startFile file).path = file.path := by
    unfold Vfs.startFile
    split_ifs <;> rfl
  unfold Vfs.vfsWrite Vfs.vfsFileWrite
  simp only [htable, hfd, if_false, hopen.slot, Vfs.object_of_openOn hopen,
    hopen.mounted, hpath, VfsOps.ofDriver_write, hwrite, bind, Except.bind]
  rfl

/-- The driver takes the position for the size, so a write through a descriptor
is right only if there is nothing to write and nothing in the file. -/
theorem vfsWrite_writesRange_iff
    {s : Vfs Device} {driver : Driver Device} {fd : ℤ} {address : ℕ}
    {file : VfsFile} {content : List UInt8}
    (hopen : s.OpenOn driver fd address file content)
    (hfd : fd ≠ Vfs.fdStdout)
    (hposition : file.writePosition content ≤ content.length)
    (buffer : ByteStore) (count : ℕ)
    (hroom : driver.StoresAll s.device file.path buffer
      (Vfs.startFile file).position) :
    s.WritesRange driver fd address file buffer count content ↔
      content = [] ∧ count = 0 ∧ file.size = 0 := by
  obtain ⟨device, stored, hwrite, hstored, hshort⟩ := hroom
  unfold Vfs.WritesRange
  rw [vfsWrite_openOn hopen hfd buffer count hwrite]
  constructor
  · rintro ⟨next, after, hresult, hcontent, hafter, hmoved, hsize⟩
    rw [Except.ok.injEq, Prod.mk.injEq] at hresult
    obtain ⟨hcount, rfl⟩ := hresult
    rw [Vfs.setObject_objects, Option.some.injEq] at hafter
    subst hafter
    rw [Vfs.setObject_device] at hcontent
    have hlength := hstored.length_eq hcontent
    rw [length_overwrite hposition, List.length_map,
      List.length_range] at hlength
    have hcount' : count = (Vfs.startFile file).position := hcount.symm
    subst hcount'
    have hstart : file.writePosition content = 0 ∧ content.length = 0 := by
      rcases writePosition_cases file content with hend | hsame <;> omega
    rw [hstart.1, Nat.zero_add] at hmoved hsize
    have hnone := advanceFile_none hmoved
    rw [hnone, hstart.2] at hsize
    refine ⟨List.eq_nil_of_length_eq_zero hstart.2, hnone, ?_⟩
    simpa [Vfs.advanceFile, startFile_size] using hsize
  · rintro ⟨rfl, rfl, hsize⟩
    have hzero : (Vfs.startFile file).position = 0 := by
      unfold VfsFile.writePosition at hposition
      unfold Vfs.startFile
      split_ifs with happend
      · exact hsize
      · simpa [happend] using hposition
    have hbegin : file.writePosition [] = 0 := by
      simpa using hposition
    rw [hzero] at hshort ⊢
    obtain rfl : stored = [] := List.eq_nil_of_length_eq_zero (by omega)
    refine ⟨_, _, rfl, ?_, Vfs.setObject_objects _ _ _, ?_, ?_⟩
    · simpa [overwrite] using hstored
    · simpa [Vfs.advanceFile, hbegin] using hzero
    · simpa [Vfs.advanceFile, hbegin, startFile_size] using hsize

/-- Two bytes written over the file `f`. -/
theorem storesAll_hello :
    Fat32.driver.StoresAll Fat32.twoFiles [47, 102] (fun _ => 65) 2 := by
  have hwritten : (Fat32.fat32WriteFile Fat32.twoFiles [47, 102]
      (fun _ => 65) 2).satisfies (fun result => decide (result.1 = 2) &&
        ((Fat32.findFile result.2 [47, 102]).satisfies (fun found =>
          found.any (fun pair => decide (pair.1.size = [65, 65].length ∧
            pair.1.firstCluster = 3))) &&
        ((Fat32.readCluster result.2 3).satisfies (fun loaded =>
          decide ([65, 65].length ≤ loaded.size) &&
            (List.range [65, 65].length).all (fun k =>
              decide (loaded.bytes k = bytesOf [65, 65] k))) &&
        (Fat32.getNextCluster result.2 3).satisfies (fun _ => true)))) =
          true := by
    decide +kernel
  obtain ⟨⟨written, device⟩, hwrite, htests⟩ :=
    Outcome.exists_of_satisfies hwritten
  simp only [Bool.and_eq_true, decide_eq_true_eq] at htests
  obtain ⟨rfl, hfound, hloaded, hlast⟩ := htests
  refine ⟨device, [65, 65], hwrite, ?_, le_rfl⟩
  refine @Fat32.readsWhole_single device [47, 102] 3 [65, 65] (by decide)
    (by decide) ?_ ?_ hlast
  · simpa using hfound
  · simpa using hloaded

/-- Writing nothing to the empty file `e`, and one byte at position 2 of `f`. -/
theorem vfsWrite_writesRange_iff_empty :
    (openVolume (openFile [47, 101] 0 0)).WritesRange Fat32.driver 3 1
        (openFile [47, 101] 0 0) (fun _ => 0) 0 [] ∧
      ¬(openVolume (openFile [47, 102] 2 5)).WritesRange Fat32.driver 3 1
        (openFile [47, 102] 2 5) (fun _ => 65) 1
          [104, 101, 108, 108, 111] := by
  have hfound : (Fat32.findFile Fat32.twoFiles [47, 101]).satisfies
      (fun found => found.any (fun pair => pair.1.size = 0)) = true := by
    decide +kernel
  have hwritten : (Fat32.fat32WriteFile Fat32.twoFiles [47, 101]
      (fun _ => 0) 0).satisfies (fun result => decide (result.1 = 0) &&
        (Fat32.findFile result.2 [47, 101]).satisfies
          (fun found => found.any (fun pair => pair.1.size = 0))) = true := by
    decide +kernel
  obtain ⟨⟨entry, parent⟩, hfind, hsize⟩ :=
    Outcome.exists_some_of_satisfies hfound
  obtain ⟨⟨written, next⟩, hwrite, hafter⟩ :=
    Outcome.exists_of_satisfies hwritten
  simp only [Bool.and_eq_true, decide_eq_true_eq] at hafter
  obtain ⟨rfl, hstill⟩ := hafter
  obtain ⟨⟨entry', parent'⟩, hfind', hsize'⟩ :=
    Outcome.exists_some_of_satisfies hstill
  have hopen : (openVolume (openFile [47, 101] 0 0)).OpenOn Fat32.driver 3 1
      (openFile [47, 101] 0 0) [] := {
    mounted := rfl
    slot := rfl
    object := rfl
    content := Fat32.readsWhole_nil hfind (of_decide_eq_true hsize) }
  have hroom : Fat32.driver.StoresAll Fat32.twoFiles [47, 101] (fun _ => 0)
      (Vfs.startFile (openFile [47, 101] 0 0)).position :=
    ⟨next, [], hwrite,
      Fat32.readsWhole_nil hfind' (of_decide_eq_true hsize'), le_rfl⟩
  refine ⟨(vfsWrite_writesRange_iff hopen (by decide) (by decide) (fun _ => 0) 0
    hroom).2 ⟨rfl, rfl, rfl⟩, fun hwrites => ?_⟩
  have hempty := ((vfsWrite_writesRange_iff (openOn_hello 2) (by decide)
    (by decide) (fun _ => 65) 1 storesAll_hello).1 hwrites).1
  cases hempty

/-- At position 2 of `f` a write of one byte replaces the file by two bytes of
the buffer and reports two. -/
theorem vfsWrite_position :
    (openVolume (openFile [47, 102] 2 5)).OpenOn Fat32.driver 3 1
        (openFile [47, 102] 2 5) [104, 101, 108, 108, 111] ∧
      (∃ next entry parent,
        (openVolume (openFile [47, 102] 2 5)).vfsWrite 3 (fun _ => 65) 1 =
            .ok (2, next) ∧
          Fat32.findFile next.device [47, 102] = .ok (some (entry, parent)) ∧
          entry.size = 2) ∧
      ¬(openVolume (openFile [47, 102] 2 5)).WritesRange Fat32.driver 3 1
        (openFile [47, 102] 2 5) (fun _ => 65) 1
          [104, 101, 108, 108, 111] := by
  have hopen := openOn_hello 2
  have hwritten : (Fat32.fat32WriteFile Fat32.twoFiles [47, 102]
      (fun _ => 65) 2).satisfies (fun result => decide (result.1 = 2) &&
        (Fat32.findFile result.2 [47, 102]).satisfies
          (fun found => found.any (fun pair => pair.1.size = 2))) = true := by
    decide +kernel
  obtain ⟨⟨written, device⟩, hwrite, hafter⟩ :=
    Outcome.exists_of_satisfies hwritten
  simp only [Bool.and_eq_true, decide_eq_true_eq] at hafter
  obtain ⟨rfl, hstill⟩ := hafter
  obtain ⟨⟨entry, parent⟩, hfind, hsize⟩ :=
    Outcome.exists_some_of_satisfies hstill
  have hresult := vfsWrite_openOn hopen (by decide) (fun _ => 65) 1 hwrite
  refine ⟨hopen, ⟨_, entry, parent, hresult, hfind,
    of_decide_eq_true hsize⟩, ?_⟩
  rintro ⟨next, after, hother, -⟩
  rw [hresult, Except.ok.injEq, Prod.mk.injEq] at hother
  exact absurd hother.1 (by decide)

end ClOs
