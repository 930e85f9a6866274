import ClOs.ElfScripts

/-!
# What a script leaves in memory

A byte of a process belongs to no page, to a page that has been mapped and not
been written there, or it has been written.  A script is replayed on these cells
alone, and the segments of an image show in them whether the bytes of a segment
outlive the segments that follow.
-/

namespace ClOs

namespace Elf

open Memory

/-- A byte of a process. -/
inductive Cell
  | unmapped
  | fresh
  | written (value : ℕ)
  deriving DecidableEq, Repr

/-- One access.  A new page replaces the one that was there. -/
def Cell.step (memory : ℕ → Cell) : Access → ℕ → Cell
  | .read _ => memory
  | .map virtAddr => fun a =>
      if a / 0x1000 = virtAddr / 0x1000 then .fresh else memory a
  | .write virtAddr value => Function.update memory virtAddr (.written value)

def replay (memory : ℕ → Cell) (script : List Access) : ℕ → Cell :=
  script.foldl Cell.step memory

def Plays : (ℕ → Cell) → List Access → Prop
  | _, [] => True
  | memory, access :: script =>
      (∀ virtAddr value, access = .write virtAddr value →
        memory virtAddr ≠ .unmapped) ∧ Plays (Cell.step memory access) script

section

variable {memory : ℕ → Cell} {image : ByteStore}

theorem Cell.step_map
    (memory : ℕ → Cell) (virtAddr a : ℕ) :
    Cell.step memory (.map virtAddr) a =
      if a / 0x1000 = virtAddr / 0x1000 then .fresh else memory a := rfl

@[simp] theorem Cell.step_write_same
    (memory : ℕ → Cell) (virtAddr value : ℕ) :
    Cell.step memory (.write virtAddr value) virtAddr = .written value :=
  Function.update_self _ _ _

theorem Cell.step_write_of_ne
    (memory : ℕ → Cell) {virtAddr value a : ℕ} (h : a ≠ virtAddr) :
    Cell.step memory (.write virtAddr value) a = memory a :=
  Function.update_of_ne h _ _

theorem replay_append
    (memory : ℕ → Cell) (first second : List Access) :
    replay memory (first ++ second) = replay (replay memory first) second :=
  List.foldl_append

theorem replay_cons
    (memory : ℕ → Cell) (access : Access) (script : List Access) :
    replay memory (access :: script) =
      replay (Cell.step memory access) script := rfl

theorem plays_append
    (first second : List Access) :
    Plays memory (first ++ second) ↔
      Plays memory first ∧ Plays (replay memory first) second := by
  induction first generalizing memory with
  | nil => simp [Plays, replay]
  | cons access first ih =>
      rw [List.cons_append, Plays, Plays, ih, replay_cons, and_assoc]

/-! ## Reads -/

theorem replay_reads
    (memory : ℕ → Cell) (offset count : ℕ) :
    replay memory (reads offset count) = memory := by
  unfold reads
  generalize List.range' 0 count = offsets
  induction offsets with
  | nil => rfl
  | cons i offsets ih => exact ih

theorem plays_reads
    (memory : ℕ → Cell) (offset count : ℕ) :
    Plays memory (reads offset count) := by
  unfold reads
  generalize List.range' 0 count = offsets
  induction offsets with
  | nil => trivial
  | cons i offsets ih =>
      exact ⟨nofun, ih⟩

/-! ## Pages -/

theorem plays_mapScript
    (memory : ℕ → Cell) (vaddr x count : ℕ) :
    Plays memory (mapScript vaddr x count) := by
  unfold mapScript
  generalize List.range' x count = pages
  induction pages generalizing memory with
  | nil => trivial
  | cons page pages ih =>
      exact ⟨nofun, ih _⟩

open Classical in
theorem replay_mapScript
    (memory : ℕ → Cell) (vaddr x count a : ℕ) :
    replay memory (mapScript vaddr x count) a =
      if ∃ y, x ≤ y ∧ y < x + count ∧
          a / 0x1000 = u32 (vaddr + y * 0x1000) / 0x1000 then
        .fresh
      else memory a := by
  induction count generalizing memory x with
  | zero =>
      rw [if_neg]
      · rfl
      rintro ⟨y, hlow, hhigh, -⟩
      omega
  | succ count ih =>
      change replay (Cell.step memory (.map (u32 (vaddr + x * 0x1000))))
        (mapScript vaddr (x + 1) count) a = _
      rw [ih]
      by_cases hlater : ∃ y, x + 1 ≤ y ∧ y < x + 1 + count ∧
          a / 0x1000 = u32 (vaddr + y * 0x1000) / 0x1000
      · obtain ⟨y, hlow, hhigh, hpage⟩ := hlater
        rw [if_pos ⟨y, hlow, hhigh, hpage⟩,
          if_pos ⟨y, by omega, by omega, hpage⟩]
      · rw [if_neg hlater]
        rw [Cell.step_map]
        by_cases hfirst : a / 0x1000 = u32 (vaddr + x * 0x1000) / 0x1000
        · rw [if_pos hfirst, if_pos ⟨x, le_rfl, by omega, hfirst⟩]
        · rw [if_neg hfirst, if_neg]
          rintro ⟨y, hlow, hhigh, hpage⟩
          by_cases hsame : y = x
          · rw [hsame] at hpage
            exact hfirst hpage
          · exact hlater ⟨y, by omega, by omega, hpage⟩

/-! ## Writes -/

theorem written_ne_unmapped
    {virtAddr value a : ℕ} (hmapped : memory virtAddr ≠ .unmapped) :
    Cell.step memory (.write virtAddr value) a ≠ .unmapped ↔
      memory a ≠ .unmapped := by
  by_cases hsame : a = virtAddr
  · subst hsame
    simp [hmapped]
  · rw [Cell.step_write_of_ne _ hsame]

theorem plays_copyScript
    (vaddr offset i count : ℕ) :
    Plays memory (copyScript image vaddr offset i count) ↔
      ∀ j, i ≤ j → j < i + count →
        memory (u32 (vaddr + j)) ≠ .unmapped := by
  induction count generalizing memory i with
  | zero =>
      refine ⟨fun _ j hlow hhigh => absurd hhigh (by omega), fun _ => trivial⟩
  | succ count ih =>
      change (_ ∧ (∀ virtAddr value, Access.write (u32 (vaddr + i))
        (image (u32 (offset + i))).toNat = .write virtAddr value →
          memory virtAddr ≠ .unmapped) ∧
        Plays (Cell.step memory (.write (u32 (vaddr + i)) _))
          (copyScript image vaddr offset (i + 1) count)) ↔ _
      rw [ih]
      constructor
      · rintro ⟨-, hfirst, hrest⟩ j hlow hhigh
        have hmapped := hfirst _ _ rfl
        by_cases hsame : j = i
        · rwa [hsame]
        · exact (written_ne_unmapped hmapped).1
            (hrest j (by omega) (by omega))
      · intro h
        have hmapped := h i le_rfl (by omega)
        refine ⟨nofun, ?_, ?_⟩
        · intro virtAddr value hwrite
          cases hwrite
          exact hmapped
        · intro j hlow hhigh
          exact (written_ne_unmapped hmapped).2 (h j (by omega) (by omega))

theorem plays_zeroScript
    (vaddr i count : ℕ) :
    Plays memory (zeroScript vaddr i count) ↔
      ∀ j, i ≤ j → j < i + count →
        memory (u32 (vaddr + j)) ≠ .unmapped := by
  induction count generalizing memory i with
  | zero =>
      refine ⟨fun _ j hlow hhigh => absurd hhigh (by omega), fun _ => trivial⟩
  | succ count ih =>
      change ((∀ virtAddr value, Access.write (u32 (vaddr + i)) 0 =
        .write virtAddr value → memory virtAddr ≠ .unmapped) ∧
        Plays (Cell.step memory (.write (u32 (vaddr + i)) 0))
          (zeroScript vaddr (i + 1) count)) ↔ _
      rw [ih]
      constructor
      · rintro ⟨hfirst, hrest⟩ j hlow hhigh
        have hmapped := hfirst _ _ rfl
        by_cases hsame : j = i
        · rwa [hsame]
        · exact (written_ne_unmapped hmapped).1
            (hrest j (by omega) (by omega))
      · intro h
        have hmapped := h i le_rfl (by omega)
        refine ⟨?_, ?_⟩
        · intro virtAddr value hwrite
          cases hwrite
          exact hmapped
        · intro j hlow hhigh
          exact (written_ne_unmapped hmapped).2 (h j (by omega) (by omega))

theorem replay_copyScript
    {vaddr offset i count : ℕ} (hfits : vaddr + i + count ≤ 4294967296)
    (a : ℕ) :
    replay memory (copyScript image vaddr offset i count) a =
      if vaddr + i ≤ a ∧ a < vaddr + i + count then
        .written (image (u32 (offset + (a - vaddr)))).toNat
      else memory a := by
  induction count generalizing memory i with
  | zero =>
      rw [if_neg (by omega)]
      rfl
  | succ count ih =>
      change replay (Cell.step memory (.write (u32 (vaddr + i)) _))
        (copyScript image vaddr offset (i + 1) count) a = _
      rw [ih (by omega), u32_of_lt (by omega : vaddr + i < 4294967296)]
      by_cases hlater : vaddr + (i + 1) ≤ a ∧ a < vaddr + (i + 1) + count
      · rw [if_pos hlater, if_pos (by omega)]
      · rw [if_neg hlater]
        by_cases hfirst : a = vaddr + i
        · rw [hfirst, Cell.step_write_same, if_pos (by omega),
            Nat.add_sub_cancel_left]
        · rw [Cell.step_write_of_ne _ hfirst, if_neg (by omega)]

theorem replay_zeroScript
    {vaddr i count : ℕ} (hfits : vaddr + i + count ≤ 4294967296) (a : ℕ) :
    replay memory (zeroScript vaddr i count) a =
      if vaddr + i ≤ a ∧ a < vaddr + i + count then .written 0
      else memory a := by
  induction count generalizing memory i with
  | zero =>
      rw [if_neg (by omega)]
      rfl
  | succ count ih =>
      change replay (Cell.step memory (.write (u32 (vaddr + i)) 0))
        (zeroScript vaddr (i + 1) count) a = _
      rw [ih (by omega), u32_of_lt (by omega : vaddr + i < 4294967296)]
      by_cases hlater : vaddr + (i + 1) ≤ a ∧ a < vaddr + (i + 1) + count
      · rw [if_pos hlater, if_pos (by omega)]
      · rw [if_neg hlater]
        by_cases hfirst : a = vaddr + i
        · rw [hfirst, Cell.step_write_same, if_pos (by omega)]
        · rw [Cell.step_write_of_ne _ hfirst, if_neg (by omega)]

/-! ## Segments -/

/-- The addresses of a segment. -/
def Segment.Has (segment : Segment) (a : ℕ) : Prop :=
  segment.vaddr ≤ a ∧ a < segment.vaddr + segment.memsz

/-- The pages that are mapped for a segment. -/
def Segment.Covers (segment : Segment) (page : ℕ) : Prop :=
  ∃ x < ceilDiv segment.memsz 0x1000,
    page = u32 (segment.vaddr + x * 0x1000) / 0x1000

/-- The byte of the image that belongs to an address, or 0 behind the file. -/
def Segment.content (image : ByteStore) (segment : Segment) (a : ℕ) : ℕ :=
  if a - segment.vaddr < segment.filesz then
    (image (u32 (segment.offset + (a - segment.vaddr)))).toNat
  else 0

/-- A segment that does not wrap, with a part in the file. -/
structure Segment.Fits (segment : Segment) : Prop where
  filesz : segment.filesz ≤ segment.memsz
  bound : segment.vaddr + segment.memsz < 4294967296

open Classical in
theorem Segment.replay_script
    {segment : Segment} (hfits : segment.Fits) (a : ℕ) :
    Elf.replay memory (segment.script image) a =
      if segment.Has a then .written (segment.content image a)
      else if segment.Covers (a / 0x1000) then .fresh
      else memory a := by
  obtain ⟨hfilesz, hbound⟩ := hfits
  have hzero : u32 (segment.vaddr + segment.filesz) =
      segment.vaddr + segment.filesz := u32_of_lt (by omega)
  have hpages : (∃ y, 0 ≤ y ∧ y < 0 + ceilDiv segment.memsz 0x1000 ∧
      a / 0x1000 = u32 (segment.vaddr + y * 0x1000) / 0x1000) ↔
        segment.Covers (a / 0x1000) := by
    simp only [Segment.Covers, Nat.zero_le, true_and, Nat.zero_add]
  rw [Segment.script, replay_append, replay_append, hzero,
    replay_zeroScript (by omega), replay_copyScript (by omega),
    replay_mapScript]
  simp only [hpages]
  unfold Segment.Has Segment.content
  by_cases hbyte : segment.vaddr ≤ a ∧ a < segment.vaddr + segment.memsz
  · rw [if_pos hbyte]
    by_cases hfile : a - segment.vaddr < segment.filesz
    · rw [if_neg (by omega), if_pos (by omega), if_pos hfile]
    · rw [if_pos (by omega), if_neg hfile]
  · rw [if_neg hbyte, if_neg (by omega), if_neg (by omega)]

theorem Segment.plays_script
    {segment : Segment} (hfits : segment.Fits) :
    Elf.Plays memory (segment.script image) ↔
      ∀ a, segment.Has a →
        segment.Covers (a / 0x1000) ∨ memory a ≠ .unmapped := by
  obtain ⟨hfilesz, hbound⟩ := hfits
  have hmapped : ∀ a, replay memory (mapScript segment.vaddr 0
      (ceilDiv segment.memsz 0x1000)) a ≠ .unmapped ↔
        segment.Covers (a / 0x1000) ∨ memory a ≠ .unmapped := by
    intro a
    have hpages : (∃ y, 0 ≤ y ∧ y < 0 + ceilDiv segment.memsz 0x1000 ∧
        a / 0x1000 = u32 (segment.vaddr + y * 0x1000) / 0x1000) ↔
          segment.Covers (a / 0x1000) := by
      simp only [Segment.Covers, Nat.zero_le, true_and, Nat.zero_add]
    rw [replay_mapScript, hpages]
    by_cases hcovers : segment.Covers (a / 0x1000)
    · simp [hcovers]
    · simp [hcovers]
  have hzero : u32 (segment.vaddr + segment.filesz) =
      segment.vaddr + segment.filesz := u32_of_lt (by omega)
  rw [Segment.script, plays_append, plays_append, plays_copyScript,
    plays_zeroScript, hzero]
  constructor
  · rintro ⟨-, hcopy, hrest⟩ a ⟨hlow, hhigh⟩
    rw [← hmapped]
    by_cases hfile : a - segment.vaddr < segment.filesz
    · have hbyte := hcopy (a - segment.vaddr) (Nat.zero_le _) (by omega)
      rwa [u32_of_lt (by omega), Nat.add_sub_cancel' hlow] at hbyte
    · have hbyte := hrest (a - (segment.vaddr + segment.filesz))
        (Nat.zero_le _) (by omega)
      rw [u32_of_lt (by omega), Nat.add_sub_cancel' (by omega),
        replay_copyScript (by omega), if_neg (by omega)] at hbyte
      exact hbyte
  · intro h
    refine ⟨plays_mapScript _ _ _ _, fun j _ hj => ?_, fun j _ hj => ?_⟩
    · rw [u32_of_lt (by omega), hmapped]
      exact h _ ⟨by omega, by omega⟩
    · rw [u32_of_lt (by omega), replay_copyScript (by omega),
        if_neg (by omega), hmapped]
      exact h _ ⟨by omega, by omega⟩

/-! ## Program headers -/

def segment (image : ByteStore) (i : ℕ) : Segment :=
  segmentAt image (headerAt image i)

/-- A program header of type `PT_LOAD` whose segment has a byte at an address. -/
def Holds (image : ByteStore) (i a : ℕ) : Prop :=
  IsLoad image (headerAt image i) ∧ (segment image i).Has a

/-- A program header of type `PT_LOAD` for which a page is mapped. -/
def Covers (image : ByteStore) (i page : ℕ) : Prop :=
  IsLoad image (headerAt image i) ∧ (segment image i).Covers page

open Classical in
theorem replay_header
    {i : ℕ} (hfits : IsLoad image (headerAt image i) → (segment image i).Fits)
    (a : ℕ) :
    replay memory (headerScript image (headerAt image i)) a =
      if Holds image i a then .written ((segment image i).content image a)
      else if Covers image i (a / 0x1000) then .fresh
      else memory a := by
  unfold headerScript Holds Covers
  rw [replay_append, replay_reads]
  by_cases hload : IsLoad image (headerAt image i)
  · rw [if_pos hload, replay_append, fieldReads, replay_append, replay_append,
      replay_append, replay_reads, replay_reads, replay_reads, replay_reads]
    simp only [hload, true_and]
    exact Segment.replay_script (hfits hload) a
  · simp only [hload, false_and, if_false]
    rfl

theorem plays_header
    {i : ℕ} (hfits : IsLoad image (headerAt image i) → (segment image i).Fits) :
    Plays memory (headerScript image (headerAt image i)) ↔
      ∀ a, Holds image i a →
        Covers image i (a / 0x1000) ∨ memory a ≠ .unmapped := by
  have hreads : ∀ offset count, Plays memory (reads offset count) ↔ True :=
    fun offset count => iff_true_intro (plays_reads memory offset count)
  unfold headerScript Holds Covers
  rw [plays_append, replay_reads, hreads, true_and]
  by_cases hload : IsLoad image (headerAt image i)
  · rw [if_pos hload, plays_append, fieldReads, replay_append, replay_append,
      replay_append, replay_reads, replay_reads, replay_reads, replay_reads,
      plays_append, plays_append, plays_append, replay_reads, replay_reads,
      replay_reads, hreads, hreads, hreads, hreads]
    simp only [hload, true_and]
    exact Segment.plays_script (hfits hload)
  · rw [if_neg hload]
    simp only [hload, false_and, false_imp_iff, implies_true, iff_true]
    trivial

/-! ## All program headers -/

/-- The program headers from `i` on whose segments do not share a byte. -/
structure SegmentsApart (image : ByteStore) (i count : ℕ) : Prop where
  fits : ∀ k, i ≤ k → k < i + count → IsLoad image (headerAt image k) →
    (segment image k).Fits
  apart : ∀ j k, i ≤ j → j < i + count → i ≤ k → k < i + count → j ≠ k →
    ∀ a, Holds image j a → ¬Holds image k a

theorem SegmentsApart.tail
    {i count : ℕ} (h : SegmentsApart image i (count + 1)) :
    SegmentsApart image (i + 1) count where
  fits k hlow hhigh := h.fits k (by omega) (by omega)
  apart j k hj hj' hk hk' :=
    h.apart j k (by omega) (by omega) (by omega) (by omega)

theorem segmentsScript_succ
    (i count : ℕ) :
    segmentsScript image i (count + 1) =
      headerScript image (headerAt image i) ++
        segmentsScript image (i + 1) count := rfl

open Classical in
/-- A byte that belongs to none of the segments. -/
theorem SegmentsApart.replay_other
    {i count a : ℕ} (h : SegmentsApart image i count)
    (hother : ∀ k, i ≤ k → k < i + count → ¬Holds image k a) :
    replay memory (segmentsScript image i count) a =
      if ∃ k, i ≤ k ∧ k < i + count ∧ Covers image k (a / 0x1000) then .fresh
      else memory a := by
  induction count generalizing memory i with
  | zero =>
      rw [if_neg]
      · rfl
      rintro ⟨k, hlow, hhigh, -⟩
      omega
  | succ count ih =>
      rw [segmentsScript_succ, replay_append, ih h.tail
        fun k hlow hhigh => hother k (by omega) (by omega)]
      by_cases hlater : ∃ k, i + 1 ≤ k ∧ k < i + 1 + count ∧
          Covers image k (a / 0x1000)
      · obtain ⟨k, hlow, hhigh, hcovers⟩ := hlater
        rw [if_pos ⟨k, hlow, hhigh, hcovers⟩,
          if_pos ⟨k, by omega, by omega, hcovers⟩]
      · rw [if_neg hlater, replay_header (h.fits i le_rfl (by omega)),
          if_neg (hother i le_rfl (by omega))]
        by_cases hfirst : Covers image i (a / 0x1000)
        · rw [if_pos hfirst, if_pos ⟨i, le_rfl, by omega, hfirst⟩]
        · rw [if_neg hfirst, if_neg]
          rintro ⟨k, hlow, hhigh, hcovers⟩
          by_cases hsame : k = i
          · rw [hsame] at hcovers
            exact hfirst hcovers
          · exact hlater ⟨k, by omega, by omega, hcovers⟩

open Classical in
theorem SegmentsApart.replay_byte
    {i count k a : ℕ} (h : SegmentsApart image i count) (hlow : i ≤ k)
    (hhigh : k < i + count) (hholds : Holds image k a) :
    replay memory (segmentsScript image i count) a =
      if ∃ j, k < j ∧ j < i + count ∧ Covers image j (a / 0x1000) then .fresh
      else .written ((segment image k).content image a) := by
  induction count generalizing memory i with
  | zero => omega
  | succ count ih =>
      rw [segmentsScript_succ, replay_append]
      by_cases hsame : k = i
      · subst hsame
        rw [h.tail.replay_other fun j hj hj' =>
          h.apart k j le_rfl (by omega) (by omega) (by omega) (by omega) a
            hholds, replay_header (h.fits k le_rfl (by omega)), if_pos hholds]
        have hrange : ∀ j, (k + 1 ≤ j ∧ j < k + 1 + count ∧
            Covers image j (a / 0x1000)) ↔
              (k < j ∧ j < k + (count + 1) ∧ Covers image j (a / 0x1000)) := by
          intro j
          constructor
          · rintro ⟨hj, hj', hcovers⟩
            exact ⟨by omega, by omega, hcovers⟩
          · rintro ⟨hj, hj', hcovers⟩
            exact ⟨by omega, by omega, hcovers⟩
        simp only [hrange]
      · rw [ih h.tail (by omega) (by omega)]
        have hend : i + 1 + count = i + (count + 1) := by omega
        rw [hend]

/-- No write of the segments faults when each page has been mapped by then. -/
theorem SegmentsApart.plays
    {i count : ℕ} (h : SegmentsApart image i count) :
    Plays memory (segmentsScript image i count) ↔
      ∀ k, i ≤ k → k < i + count → ∀ a, Holds image k a →
        (∃ j, i ≤ j ∧ j ≤ k ∧ Covers image j (a / 0x1000)) ∨
          memory a ≠ .unmapped := by
  induction count generalizing memory i with
  | zero =>
      refine ⟨fun _ k hlow hhigh => absurd hhigh (by omega), fun _ => trivial⟩
  | succ count ih =>
      have hfits := h.fits i le_rfl (by omega)
      have hafter : ∀ k, i < k → k < i + (count + 1) → ∀ a, Holds image k a →
          (replay memory (headerScript image (headerAt image i)) a ≠ .unmapped ↔
            Covers image i (a / 0x1000) ∨ memory a ≠ .unmapped) := by
        intro k hlow hhigh a hholds
        have hnot := h.apart k i (by omega) (by omega) le_rfl (by omega)
          (by omega) a hholds
        rw [replay_header hfits, if_neg hnot]
        by_cases hcovers : Covers image i (a / 0x1000)
        · simp [hcovers]
        · simp [hcovers]
      rw [segmentsScript_succ, plays_append, plays_header hfits, ih h.tail]
      constructor
      · rintro ⟨hfirst, hrest⟩ k hlow hhigh a hholds
        by_cases hsame : k = i
        · subst hsame
          rcases hfirst a hholds with hcovers | hmapped
          · exact .inl ⟨k, le_rfl, le_rfl, hcovers⟩
          · exact .inr hmapped
        · rcases hrest k (by omega) (by omega) a hholds with
            ⟨j, hj, hj', hcovers⟩ | hmapped
          · exact .inl ⟨j, by omega, hj', hcovers⟩
          · rcases (hafter k (by omega) hhigh a hholds).1 hmapped with
              hcovers | hmapped
            · exact .inl ⟨i, le_rfl, hlow, hcovers⟩
            · exact .inr hmapped
      · intro hall
        refine ⟨fun a hholds => ?_, fun k hlow hhigh a hholds => ?_⟩
        · rcases hall i le_rfl (by omega) a hholds with
            ⟨j, hj, hj', hcovers⟩ | hmapped
          · obtain rfl : j = i := by omega
            exact .inl hcovers
          · exact .inr hmapped
        · rw [hafter k (by omega) (by omega) a hholds]
          rcases hall k (by omega) (by omega) a hholds with
            ⟨j, hj, hj', hcovers⟩ | hmapped
          · by_cases hsame : j = i
            · rw [hsame] at hcovers
              exact .inr (.inl hcovers)
            · exact .inl ⟨j, by omega, hj', hcovers⟩
          · exact .inr (.inr hmapped)

end

end Elf

end ClOs
