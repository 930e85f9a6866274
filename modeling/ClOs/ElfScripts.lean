import ClOs.ElfModel

/-!
# The script of a load

The branches of `elf_load` depend on the image alone, so that a load performs a
script of accesses: the bytes of the headers, and for each segment its pages, its
bytes in the file and its zeros.
-/

namespace ClOs

namespace Elf

open Memory Stopping

def perform : Access → Load Unit
  | .read offset => note (.read offset)
  | .map virtAddr => mapNewPage virtAddr
  | .write virtAddr value => writeByte virtAddr value

/-! ## What an image holds -/

def word16 (image : ByteStore) (offset : ℕ) : ℕ :=
  (image (u32 offset)).toNat + 256 * (image (u32 (offset + 1))).toNat

def word32 (image : ByteStore) (offset : ℕ) : ℕ :=
  word16 image offset + 65536 * word16 image (offset + 2)

/-- `header->e_entry`, `header->e_phoff` and `header->e_phnum`. -/
def entryPoint (image : ByteStore) : ℕ := word32 image 24
def phoff (image : ByteStore) : ℕ := word32 image 28
def phnum (image : ByteStore) : ℕ := word16 image 44

/-- The address of a program header. -/
def headerAt (image : ByteStore) (i : ℕ) : ℕ := u32 (phoff image + 32 * i)

/-- The fields of a program header that a load uses. -/
structure Segment where
  vaddr : ℕ
  memsz : ℕ
  filesz : ℕ
  offset : ℕ
  deriving DecidableEq, Repr

def segmentAt (image : ByteStore) (header : ℕ) : Segment where
  vaddr := word32 image (header + 8)
  memsz := word32 image (header + 20)
  filesz := word32 image (header + 16)
  offset := word32 image (header + 4)

/-- A program header of type `PT_LOAD`. -/
def IsLoad (image : ByteStore) (header : ℕ) : Prop :=
  word32 image header = ptLoad

instance (image : ByteStore) (header : ℕ) : Decidable (IsLoad image header) :=
  inferInstanceAs (Decidable (word32 image header = ptLoad))

/-- The addresses that a segment maps a page at. -/
def Segment.pages (segment : Segment) : List ℕ :=
  (List.range' 0 (ceilDiv segment.memsz 0x1000)).map fun x =>
    u32 (segment.vaddr + x * 0x1000)

/-! ## Scripts -/

def reads (offset count : ℕ) : List Access :=
  (List.range' 0 count).map fun i => .read (u32 (offset + i))

def mapScript (vaddr x count : ℕ) : List Access :=
  (List.range' x count).map fun x => .map (u32 (vaddr + x * 0x1000))

def copyScript (image : ByteStore) (vaddr offset i count : ℕ) : List Access :=
  (List.range' i count).flatMap fun i =>
    [.read (u32 (offset + i)),
      .write (u32 (vaddr + i)) (image (u32 (offset + i))).toNat]

def zeroScript (vaddr i count : ℕ) : List Access :=
  (List.range' i count).map fun i => .write (u32 (vaddr + i)) 0

/-- What follows the reads of a program header. -/
def Segment.script (image : ByteStore) (segment : Segment) : List Access :=
  mapScript segment.vaddr 0 (ceilDiv segment.memsz 0x1000) ++
    (copyScript image segment.vaddr segment.offset 0 segment.filesz ++
      zeroScript (u32 (segment.vaddr + segment.filesz)) 0
        (segment.memsz - segment.filesz))

/-- The fields of a program header of type `PT_LOAD` are read one by one. -/
def fieldReads (header : ℕ) : List Access :=
  reads (header + 8) 4 ++ (reads (header + 20) 4 ++ (reads (header + 16) 4 ++
    reads (header + 4) 4))

def headerScript (image : ByteStore) (header : ℕ) : List Access :=
  reads header 4 ++
    if IsLoad image header then
      fieldReads header ++ (segmentAt image header).script image
    else []

def segmentsScript (image : ByteStore) (i count : ℕ) : List Access :=
  (List.range' i count).flatMap fun i => headerScript image (headerAt image i)

/-- The reads of `validate_elf`. -/
def validateReads : List Access :=
  reads 0 1 ++ (reads 1 1 ++ (reads 2 1 ++ (reads 3 1 ++ (reads eiClass 1 ++
    (reads 18 2 ++ reads 16 2)))))

/-- The reads of the ELF header by `elf_load`. -/
def entryReads : List Access := reads 24 4 ++ (reads 28 4 ++ reads 44 2)

/-! ## What a script consists of -/

theorem mem_reads
    {access : Access} {offset count : ℕ} :
    access ∈ reads offset count ↔
      ∃ i < count, access = .read (u32 (offset + i)) := by
  simp [reads, List.mem_range'_1, eq_comm]

theorem mem_mapScript
    {access : Access} {vaddr count : ℕ} :
    access ∈ mapScript vaddr 0 count ↔
      ∃ x < count, access = .map (u32 (vaddr + x * 0x1000)) := by
  simp [mapScript, List.mem_range'_1, eq_comm]

theorem mem_copyScript
    {image : ByteStore} {access : Access} {vaddr offset count : ℕ} :
    access ∈ copyScript image vaddr offset 0 count ↔
      ∃ i < count, access = .read (u32 (offset + i)) ∨
        access = .write (u32 (vaddr + i)) (image (u32 (offset + i))).toNat := by
  simp [copyScript, List.mem_range'_1]

theorem mem_zeroScript
    {access : Access} {vaddr count : ℕ} :
    access ∈ zeroScript vaddr 0 count ↔
      ∃ i < count, access = .write (u32 (vaddr + i)) 0 := by
  simp [zeroScript, List.mem_range'_1, eq_comm]

theorem mem_headerScript
    {image : ByteStore} {access : Access} {header : ℕ}
    (h : access ∈ headerScript image header) :
    (∃ i < 32, access = .read (u32 (header + i))) ∨
      IsLoad image header ∧ access ∈ (segmentAt image header).script image := by
  have hfield : ∀ offset, offset + 4 ≤ 32 →
      access ∈ reads (header + offset) 4 →
        ∃ i < 32, access = .read (u32 (header + i)) := by
    intro offset hoffset hmem
    obtain ⟨i, hi, rfl⟩ := mem_reads.1 hmem
    exact ⟨offset + i, by omega, by rw [Nat.add_assoc]⟩
  unfold headerScript at h
  rcases List.mem_append.1 h with htype | hrest
  · exact .inl (hfield 0 (by norm_num) htype)
  · split_ifs at hrest with hload
    · rcases List.mem_append.1 hrest with hfields | hscript
      · left
        unfold fieldReads at hfields
        simp only [List.mem_append] at hfields
        rcases hfields with hvaddr | hmemsz | hfilesz | hoffset
        · exact hfield 8 (by norm_num) hvaddr
        · exact hfield 20 (by norm_num) hmemsz
        · exact hfield 16 (by norm_num) hfilesz
        · exact hfield 4 (by norm_num) hoffset
      · exact .inr ⟨hload, hscript⟩
    · exact absurd hrest List.not_mem_nil

theorem mem_segmentsScript
    {image : ByteStore} {access : Access} {i count : ℕ} :
    access ∈ segmentsScript image i count ↔ ∃ k, i ≤ k ∧ k < i + count ∧
      access ∈ headerScript image (headerAt image k) := by
  simp [segmentsScript, List.mem_range'_1, and_assoc]

/-! ## Reads -/

section

variable {image : ByteStore}

theorem readByte_performs
    (offset : ℕ) :
    Performs perform (readByte image offset) (reads offset 1)
      (image (u32 offset)).toNat :=
  fun _ => rfl

theorem read16_performs
    (offset : ℕ) :
    Performs perform (read16 image offset) (reads offset 2)
      (word16 image offset) :=
  (readByte_performs offset).bind
    (((readByte_performs (offset + 1)).bind (Performs.pure _)))

theorem read32_performs
    (offset : ℕ) :
    Performs perform (read32 image offset) (reads offset 4)
      (word32 image offset) :=
  (read16_performs offset).bind
    (((read16_performs (offset + 2)).bind (Performs.pure _)))

/-! ## Segments -/

theorem mapPages_performs
    (vaddr count x : ℕ) :
    Performs perform (mapPages vaddr count x) (mapScript vaddr x count) () := by
  induction count generalizing x with
  | zero => exact Performs.pure _
  | succ count ih =>
      have hpage : Performs perform (mapNewPage (u32 (vaddr + x * 0x1000)))
          [.map (u32 (vaddr + x * 0x1000))] () :=
        Performs.operation (Access.map _)
      exact hpage.bind (ih (x + 1))

theorem writeByte_performs
    (virtAddr value : ℕ) :
    Performs perform (writeByte virtAddr value) [.write virtAddr value] () :=
  Performs.operation (Access.write _ _)

theorem copyBytes_performs
    (vaddr offset count i : ℕ) :
    Performs perform (copyBytes image vaddr offset count i)
      (copyScript image vaddr offset i count) () := by
  induction count generalizing i with
  | zero => exact Performs.pure _
  | succ count ih =>
      exact (readByte_performs (offset + i)).bind
        ((writeByte_performs (u32 (vaddr + i)) _).bind (ih (i + 1)))

theorem zeroBytes_performs
    (vaddr count i : ℕ) :
    Performs perform (zeroBytes vaddr count i) (zeroScript vaddr i count) () := by
  induction count generalizing i with
  | zero => exact Performs.pure _
  | succ count ih =>
      exact (writeByte_performs (u32 (vaddr + i)) 0).bind (ih (i + 1))

theorem loadSegment_performs
    (header : ℕ) :
    Performs perform (loadSegment image header) (headerScript image header)
      () := by
  unfold loadSegment headerScript
  refine (read32_performs header).bind ?_
  by_cases hload : IsLoad image header
  · have hword : word32 image header = ptLoad := hload
    rw [if_pos hload, if_pos hword]
    have hbody : Performs perform (do
        mapPages (word32 image (header + 8))
          (ceilDiv (word32 image (header + 20)) 0x1000) 0
        copyBytes image (word32 image (header + 8)) (word32 image (header + 4))
          (word32 image (header + 16)) 0
        zeroBytes (u32 (word32 image (header + 8) + word32 image (header + 16)))
          (word32 image (header + 20) - word32 image (header + 16)) 0)
        ((segmentAt image header).script image) () :=
      (mapPages_performs _ _ 0).bind
        ((copyBytes_performs _ _ _ 0).bind (zeroBytes_performs _ _ 0))
    unfold fieldReads
    simp only [List.append_assoc]
    exact (read32_performs (header + 8)).bind
      ((read32_performs (header + 20)).bind
        ((read32_performs (header + 16)).bind
          ((read32_performs (header + 4)).bind hbody)))
  · have hword : ¬word32 image header = ptLoad := hload
    rw [if_neg hload, if_neg hword]
    exact Performs.pure _

theorem loadSegments_performs
    (count i : ℕ) :
    Performs perform (loadSegments image (phoff image) count i)
      (segmentsScript image i count) () := by
  induction count generalizing i with
  | zero => exact Performs.pure _
  | succ count ih =>
      exact (loadSegment_performs (headerAt image i)).bind (ih (i + 1))

/-! ## Validation -/

/-- The state after a part of the image has been read. -/
def Loader.noted (l : Loader) (script : List Access) : Loader :=
  { l with trace := l.trace ++ script }

theorem Loader.noted_noted
    (l : Loader) (first second : List Access) :
    (l.noted first).noted second = l.noted (first ++ second) := by
  simp [Loader.noted, List.append_assoc]

theorem readByte_eq
    (offset : ℕ) (l : Loader) :
    readByte image offset l =
      (.ok (image (u32 offset)).toNat, l.noted (reads offset 1)) := rfl

theorem read16_eq
    (offset : ℕ) (l : Loader) :
    read16 image offset l =
      (.ok (word16 image offset), l.noted (reads offset 2)) := by
  unfold read16
  rw [bind_ok (readByte_eq offset l), bind_ok (readByte_eq (offset + 1) _),
    Loader.noted_noted]
  rfl

theorem read32_eq
    (offset : ℕ) (l : Loader) :
    read32 image offset l =
      (.ok (word32 image offset), l.noted (reads offset 4)) := by
  unfold read32
  rw [bind_ok (read16_eq offset l), bind_ok (read16_eq (offset + 2) _),
    Loader.noted_noted]
  rfl

/-- `validate_elf` accepts an image. -/
def Accepts (image : ByteStore) : Prop :=
  ∀ l, (validateElf image l).1 = .ok 0

theorem expects_eq
    {value : Load ℕ} {v expected : ℕ} {rest : Load ℤ} {script : List Access}
    {l : Loader} (hvalue : value l = (.ok v, l.noted script)) :
    expects value expected rest l =
      if v ≠ expected then (.ok (-1), l.noted script)
      else rest (l.noted script) := by
  unfold expects
  rw [bind_ok hvalue]
  split_ifs <;> rfl

/-- The tests of `validate_elf`. -/
theorem accepts_of_header
    (h0 : (image (u32 0)).toNat = eiMag0) (h1 : (image (u32 1)).toNat = eiMag1)
    (h2 : (image (u32 2)).toNat = eiMag2) (h3 : (image (u32 3)).toNat = eiMag3)
    (hclass : (image (u32 eiClass)).toNat = elfClass32)
    (hmachine : word16 image 18 = em386) (htype : word16 image 16 = etExec) :
    Accepts image := by
  intro l
  unfold validateElf
  rw [expects_eq (readByte_eq 0 l), if_neg (not_not.2 h0),
    expects_eq (readByte_eq 1 _), if_neg (not_not.2 h1),
    expects_eq (readByte_eq 2 _), if_neg (not_not.2 h2),
    expects_eq (readByte_eq 3 _), if_neg (not_not.2 h3),
    expects_eq (readByte_eq eiClass _), if_neg (not_not.2 hclass),
    expects_eq (read16_eq 18 _), if_neg (not_not.2 hmachine),
    expects_eq (read16_eq 16 _), if_neg (not_not.2 htype)]
  rfl

/-- A test that is made in front of an accepted image holds. -/
theorem expects_accepts
    {value : Load ℕ} {v expected : ℕ} {rest : Load ℤ} {script : List Access}
    {l : Loader} (hvalue : value l = (.ok v, l.noted script))
    (haccepts : (expects value expected rest l).1 = .ok 0) :
    expects value expected rest l = rest (l.noted script) := by
  have heq : expects value expected rest l =
      if v ≠ expected then (.ok (-1), l.noted script)
      else rest (l.noted script) := expects_eq hvalue
  by_cases hne : v ≠ expected
  · rw [heq, if_pos hne] at haccepts
    cases haccepts
  · rw [heq, if_neg hne]

theorem Accepts.validateElf
    (h : Accepts image) (l : Loader) :
    validateElf image l = (.ok 0, l.noted validateReads) := by
  have haccepts := h l
  unfold Elf.validateElf at haccepts ⊢
  have h0 := expects_accepts (readByte_eq 0 l) haccepts
  rw [h0] at haccepts ⊢
  have h1 := expects_accepts (readByte_eq 1 _) haccepts
  rw [h1] at haccepts ⊢
  have h2 := expects_accepts (readByte_eq 2 _) haccepts
  rw [h2] at haccepts ⊢
  have h3 := expects_accepts (readByte_eq 3 _) haccepts
  rw [h3] at haccepts ⊢
  have h4 := expects_accepts (readByte_eq eiClass _) haccepts
  rw [h4] at haccepts ⊢
  have h5 := expects_accepts (read16_eq 18 _) haccepts
  rw [h5] at haccepts ⊢
  have h6 := expects_accepts (read16_eq 16 _) haccepts
  rw [h6]
  simp only [Loader.noted_noted, List.append_assoc]
  rfl

/-! ## The load -/

/-- The state in which the loop over the program headers starts. -/
def Loader.entered (l : Loader) (image : ByteStore) (pageDir : ℕ) : Loader where
  vm := memChangePageDir l.vm pageDir
  entryPoint := Elf.entryPoint image
  trace := l.trace ++ (validateReads ++ entryReads)

/-- What follows the loop over the program headers. -/
def afterSegments (oldPageDir : ℕ) (segments : Load Unit) : Load ℤ :=
  onOutOfMemory
    (do
      segments
      mapStack oldPageDir)
    (do
      changePageDir oldPageDir
      return -1)

theorem elfLoad_eq
    (h : Accepts image) (pageDir : ℕ) (l : Loader) :
    elfLoad image pageDir l =
      afterSegments (memGetCurrentPageDir l.vm)
        (loadSegments image (phoff image) (phnum image) 0)
        (l.entered image pageDir) := by
  unfold elfLoad
  rw [bind_ok (h.validateElf l), if_neg (by norm_num),
    bind_ok (read32_eq 24 _)]
  rw [bind_change, bind_ok (read32_eq 28 _), bind_read, changePageDir,
    bind_change, bind_ok (read16_eq 44 _)]
  simp only [Loader.noted, List.append_assoc]
  rfl

end

end Elf

end ClOs
