import ClOs.Ext3BlockMap

/-!
# Reading through a handle

A read goes on from the position of the handle, a chunk from each block, until
it has its bytes, the file ends or a block is missing.  The chunks make up one
run of bytes, and a run may be cut anywhere.
-/

namespace ClOs

/-- The length of the run of numbers from `start` on, `count` at most, that pass
a test. -/
def runLength (test : ℕ → Bool) : ℕ → ℕ → ℕ
  | _, 0 => 0
  | start, count + 1 =>
      if test start then runLength test (start + 1) count + 1 else 0

section

variable (test : ℕ → Bool)

theorem runLength_succ (start count : ℕ) :
    runLength test start (count + 1) =
      if test start then runLength test (start + 1) count + 1 else 0 := rfl

theorem runLength_le (start count : ℕ) :
    runLength test start count ≤ count := by
  induction count generalizing start with
  | zero => exact le_rfl
  | succ count ih =>
      have hrest := ih (start + 1)
      rw [runLength_succ]
      split_ifs <;> omega

theorem runLength_add (start first second : ℕ) :
    runLength test start (first + second) =
      if runLength test start first = first then
        first + runLength test (start + first) second
      else runLength test start first := by
  induction first generalizing start with
  | zero => simp [runLength]
  | succ first ih =>
      rw [Nat.succ_add, runLength_succ, runLength_succ]
      by_cases hpass : test start = true
      · rw [if_pos hpass, if_pos hpass, ih (start + 1)]
        by_cases hwhole : runLength test (start + 1) first = first
        · rw [if_pos hwhole, if_pos (by omega),
            show start + 1 + first = start + (first + 1) by omega]
          omega
        · rw [if_neg hwhole, if_neg (by omega)]
      · rw [if_neg hpass, if_neg hpass, if_neg (by omega)]

variable {test} {start count : ℕ}

theorem runLength_pass {k : ℕ} (hk : k < runLength test start count) :
    test (start + k) = true := by
  induction count generalizing start k with
  | zero => simp [runLength] at hk
  | succ count ih =>
      rw [runLength_succ] at hk
      split_ifs at hk with hpass
      · cases k with
        | zero => exact hpass
        | succ k =>
            have hrest : test (start + 1 + k) = true := ih (by omega)
            rwa [show start + 1 + k = start + (k + 1) by omega] at hrest
      · omega

/-- A run that is cut short ends at a number that fails the test. -/
theorem runLength_stop (hshort : runLength test start count < count) :
    test (start + runLength test start count) = false := by
  induction count generalizing start with
  | zero => omega
  | succ count ih =>
      rw [runLength_succ] at hshort ⊢
      by_cases hpass : test start = true
      · rw [if_pos hpass] at hshort ⊢
        have hrest : test (start + 1 + runLength test (start + 1) count) =
            false := ih (by omega)
        rwa [show start + 1 + runLength test (start + 1) count =
          start + (runLength test (start + 1) count + 1) by omega] at hrest
      · rw [if_neg hpass]
        simpa using hpass

theorem runLength_eq_self
    (h : ∀ k < count, test (start + k) = true) :
    runLength test start count = count := by
  by_contra hne
  have hle := runLength_le test start count
  have hstop : test (start + runLength test start count) = false :=
    runLength_stop (by omega)
  rw [h _ (by omega)] at hstop
  cases hstop

end

/-- Two copies one behind the other are one. -/
theorem ByteStore.blit_append
    (store whole : ByteStore) {first rest : ByteStore}
    {address count more : ℕ}
    (hfirst : ∀ k < count, first k = whole k)
    (hrest : ∀ k < more, rest k = whole (count + k)) :
    (store.blit address first count).blit (address + count) rest more =
      store.blit address whole (count + more) := by
  funext k
  rcases Nat.lt_or_ge k address with hbefore | hlow
  · rw [blit_outside _ _ (by omega), blit_outside _ _ (by omega),
      blit_outside _ _ (by omega)]
  rcases Nat.lt_or_ge k (address + count) with hinside | hmiddle
  · rw [blit_outside _ _ (by omega), blit_inside _ _ hlow hinside,
      blit_inside _ _ hlow (by omega), hfirst _ (by omega)]
  rcases Nat.lt_or_ge k (address + count + more) with hhigh | hbehind
  · rw [blit_inside _ _ hmiddle hhigh, blit_inside _ _ hlow (by omega),
      hrest _ (by omega)]
    congr 1
    omega
  · rw [blit_outside _ _ (by omega), blit_outside _ _ (by omega),
      blit_outside _ _ (by omega)]

namespace Ext3

open ByteStore

/-! ## The bytes of an open file -/

/-- Whether the byte at an offset of a file lies in a block that is there. -/
def mappedAt (v : Volume) (inode : Inode) (offset : ℕ) : Bool :=
  driverBlock v inode (offset / v.blockSize) ≠ 0

def deliveredAt (v : Volume) (inode : Inode) (offset : ℕ) : UInt8 :=
  (fetch v (driverBlock v inode (offset / v.blockSize))).bytes
    (offset % v.blockSize)

def storedAt (v : Volume) (inode : Inode) (offset : ℕ) : UInt8 :=
  v.disk (v.blockBase (driverBlock v inode (offset / v.blockSize)) +
    offset % v.blockSize)

theorem deliveredAt_eq_storedAt
    {v : Volume} {inode : Inode} {offset : ℕ}
    (hoffset : offset % v.blockSize < 131072) :
    deliveredAt v inode offset = storedAt v inode offset := by
  have hmod := Nat.mod_lt offset v.blockSize_pos
  have htransfer := v.transfer_eq_min
  exact fetch_inside v _ (by omega)

/-- The number of bytes that a read of `size` bytes returns. -/
def File.available (v : Volume) (file : File) (size : ℕ) : ℕ :=
  runLength (mappedAt v file.inode) file.position
    (min size (file.size - file.position))

/-- The loop of `ext3_read` from an offset inside block `index` on. -/
theorem readChunks_eq
    (v : Volume) (inode : Inode) (toRead start : ℕ)
    (fuel total index place : ℕ) (buffer : ByteStore)
    (htotal : total ≤ toRead)
    (hplace : place < v.blockSize)
    (hoffset : start + total = index * v.blockSize + place)
    (hfuel : toRead - total + place + v.blockSize ≤ fuel * v.blockSize) :
    readChunks v inode toRead fuel total index place buffer =
      .ok (total + runLength (mappedAt v inode) (start + total)
          (toRead - total),
        buffer.blit total (fun k => deliveredAt v inode (start + total + k))
          (runLength (mappedAt v inode) (start + total)
            (toRead - total))) := by
  have hpos := v.blockSize_pos
  induction fuel generalizing total index place buffer with
  | zero =>
      rw [Nat.zero_mul] at hfuel
      omega
  | succ fuel ih =>
      unfold readChunks
      by_cases hend : toRead ≤ total
      · have hnone : toRead - total = 0 := by omega
        rw [if_pos hend, hnone]
        have hempty : ∀ source : ByteStore, buffer.blit total source 0 =
            buffer := fun source => funext fun k =>
          blit_outside buffer source (by omega)
        simp [runLength, hempty, pure, Except.pure]
      rw [if_neg hend, blockFromInode_eq]
      have hblock : ∀ k, place + k < v.blockSize →
          (start + total + k) / v.blockSize = index ∧
            (start + total + k) % v.blockSize = place + k := by
        intro k hk
        rw [hoffset, Nat.add_assoc]
        exact div_of_place hk
      have hfirst := (hblock 0 (by omega)).1
      simp only [bind, Except.bind]
      by_cases hmissing : driverBlock v inode index = 0
      · obtain ⟨rest, hrest⟩ : ∃ rest, toRead - total = rest + 1 :=
          ⟨toRead - total - 1, by omega⟩
        have htest : mappedAt v inode (start + total) = false := by
          simp [mappedAt, show (start + total) / v.blockSize = index from hfirst,
            hmissing]
        have hempty : ∀ source : ByteStore, buffer.blit total source 0 =
            buffer := fun source => funext fun k =>
          blit_outside buffer source (by omega)
        rw [if_pos hmissing, hrest]
        simp [runLength, htest, hempty, pure, Except.pure]
      rw [if_neg hmissing]
      generalize hchunk : min (v.blockSize - place) (toRead - total) = chunk
      have hslice : (fetch v (driverBlock v inode index)).slice place chunk =
          .ok ((fetch v (driverBlock v inode index)).bytes.drop place) :=
        Buffer.slice_eq_ok.2 ⟨by rw [fetch_size]; omega, rfl⟩
      rw [hslice]
      have hmapped : runLength (mappedAt v inode) (start + total) chunk =
          chunk := by
        refine runLength_eq_self fun k hk => ?_
        simp [mappedAt, (hblock k (by omega)).1, hmissing]
      have hsplit : toRead - total = chunk + (toRead - (total + chunk)) := by
        omega
      have hrun : runLength (mappedAt v inode) (start + total)
          (toRead - total) = chunk + runLength (mappedAt v inode)
            (start + (total + chunk)) (toRead - (total + chunk)) := by
        rw [hsplit, runLength_add, if_pos hmapped, ← Nat.add_assoc start]
      have hbytes : ∀ k < chunk,
          (fetch v (driverBlock v inode index)).bytes.drop place k =
            deliveredAt v inode (start + total + k) := by
        intro k hk
        obtain ⟨hdiv, hmod⟩ := hblock k (by omega)
        rw [drop_apply, deliveredAt, hdiv, hmod]
      simp only
      rcases Nat.lt_or_ge (toRead - total) (v.blockSize - place) with
        hlast | hmore
      · -- The chunk is the last one, and the next round ends the loop.
        have hdone : total + chunk = toRead := by omega
        obtain ⟨fuel, rfl⟩ : ∃ n, fuel = n + 1 := by
          refine ⟨fuel - 1, ?_⟩
          by_contra hzero
          have : fuel = 0 := by omega
          subst this
          rw [Nat.one_mul] at hfuel
          omega
        rw [readChunks, if_pos (by omega), hrun, hdone, Nat.sub_self]
        simp only [runLength, Nat.add_zero, pure, Except.pure]
        rw [← hdone, blit_congr buffer hbytes]
      · have hnext : total + chunk ≤ toRead := by omega
        have hfuel' : toRead - (total + chunk) + 0 + v.blockSize ≤
            fuel * v.blockSize := by
          rw [Nat.succ_mul] at hfuel
          omega
        have hoffset' : start + (total + chunk) =
            (index + 1) * v.blockSize + 0 := by
          rw [Nat.succ_mul]
          omega
        rw [ih (total + chunk) (index + 1) 0 _ hnext hpos hoffset' hfuel',
          hrun, Nat.add_assoc]
        congr 2
        exact blit_append buffer _ hbytes fun k _ => by
          rw [← Nat.add_assoc start, Nat.add_assoc (start + total)]

theorem ext3Read_eq
    (v : Volume) (file : File) (buffer : ByteStore) (size : ℕ)
    (hposition : file.position ≤ file.size) :
    ext3Read v file buffer size =
      .ok (file.available v size,
        buffer.blit 0
          (fun k => deliveredAt v file.inode (file.position + k))
          (file.available v size),
        { file with position := file.position + file.available v size }) := by
  have hpos := v.blockSize_pos
  have hlt := file.size_lt
  unfold ext3Read
  split_ifs with hend
  · have hnone : file.available v size = 0 := by
      unfold File.available
      rw [show min size (file.size - file.position) = 0 by omega]
      rfl
    have hempty : ∀ source : ByteStore, buffer.blit 0 source 0 = buffer :=
      fun source => funext fun k => blit_outside buffer source (by omega)
    rw [hnone, hempty]
    rfl
  · have hdiv := Nat.div_add_mod' file.position v.blockSize
    have hmod := Nat.mod_lt file.position hpos
    generalize htoRead : min size (file.size - file.position) = toRead
    have hrounds : toRead + file.position % v.blockSize + v.blockSize ≤
        (toRead / v.blockSize + 3) * v.blockSize := by
      have htoRead_div := Nat.div_add_mod' toRead v.blockSize
      have htoRead_mod := Nat.mod_lt toRead hpos
      rw [Nat.add_mul]
      omega
    have havailable : file.available v size =
        runLength (mappedAt v file.inode) file.position toRead := by
      rw [File.available, htoRead]
    have hbound : file.available v size ≤ toRead := by
      rw [havailable]
      exact runLength_le _ _ _
    dsimp only
    rw [readChunks_eq v file.inode toRead file.position _ 0 _ _ buffer
      (Nat.zero_le _) hmod hdiv.symm hrounds]
    simp only [Nat.add_zero, Nat.sub_zero, Nat.zero_add, ← havailable, bind,
      Except.bind, pure, Except.pure]
    rw [u32_of_lt (by omega)]

/-! ## Two reads and one -/

/-- A read of `size` bytes stores `count` bytes and moves the position behind
them. -/
def ReadsRun (v : Volume) (file : File) (size count : ℕ)
    (bytes : ByteStore) : Prop :=
  ∀ buffer, ext3Read v file buffer size =
    .ok (count, buffer.blit 0 bytes count,
      { file with position := file.position + count })

/-- Reads of `first` and then of `second` bytes do what one read does.  The
bytes are those of the logical blocks, as far as they stand among the first
`limit` bytes of their block, up to the end of the file or a missing block. -/
def ReadsOn (v : Volume) (file : File) (first second limit : ℕ) : Prop :=
  ∃ count more bytes,
    ReadsRun v file first count bytes ∧
    ReadsRun v { file with position := file.position + count } second more
      (bytes.drop count) ∧
    ReadsRun v file (first + second) (count + more) bytes ∧
    count + more ≤ first + second ∧
    file.position + (count + more) ≤ file.size ∧
    (∀ k < count + more, ∃ block,
      blockFromInode v file.inode ((file.position + k) / v.blockSize) =
          .ok block ∧ block ≠ 0 ∧
        ((file.position + k) % v.blockSize < limit →
          bytes k = v.disk (v.blockBase block +
            (file.position + k) % v.blockSize))) ∧
    (count + more < first + second →
      file.position + (count + more) = file.size ∨
        blockFromInode v file.inode
          ((file.position + (count + more)) / v.blockSize) = .ok 0)

theorem File.available_le (v : Volume) (file : File) (size : ℕ) :
    file.available v size ≤ size ∧
      file.available v size ≤ file.size - file.position := by
  have hle := runLength_le (mappedAt v file.inode) file.position
    (min size (file.size - file.position))
  unfold File.available
  omega

/-- A read that returns less than it could has met a missing block. -/
theorem File.available_stop
    (v : Volume) (file : File) (size : ℕ)
    (hshort : file.available v size <
      min size (file.size - file.position)) :
    driverBlock v file.inode
      ((file.position + file.available v size) / v.blockSize) = 0 := by
  have hstop : mappedAt v file.inode
      (file.position + file.available v size) = false :=
    runLength_stop hshort
  simpa [mappedAt] using hstop

/-- The run of the second read is the rest of the run of the whole one. -/
theorem File.available_add
    (v : Volume) (file : File) (first second : ℕ)
    (hposition : file.position ≤ file.size) :
    file.available v (first + second) = file.available v first +
      File.available v
        { file with position := file.position + file.available v first }
        second := by
  obtain ⟨hfirst, hfile⟩ := file.available_le v first
  generalize hcount : file.available v first = count at *
  have hrun : runLength (mappedAt v file.inode) file.position
      (min first (file.size - file.position)) = count := hcount
  have hrest : min (first + second) (file.size - file.position) =
      min first (file.size - file.position) +
        min (first + second - min first (file.size - file.position))
          (file.size - file.position -
            min first (file.size - file.position)) := by omega
  unfold File.available
  dsimp only
  rw [hrest, runLength_add, hrun]
  split_ifs with hwhole
  · rw [← hwhole, hwhole]
    congr 2
    omega
  · -- The first read met a missing block, and so does the second at once.
    have hmissing := file.available_stop v first (by omega)
    rw [hcount] at hmissing
    have hnone : runLength (mappedAt v file.inode) (file.position + count)
        (min second (file.size - (file.position + count))) = 0 := by
      generalize min second (file.size - (file.position + count)) = rest
      cases rest with
      | zero => rfl
      | succ rest => simp [runLength_succ, mappedAt, hmissing]
    omega

theorem ext3Read_readsOn
    (v : Volume) (file : File) (first second : ℕ)
    (hposition : file.position ≤ file.size) :
    ReadsOn v file first second 131072 := by
  have hadd := file.available_add v first second hposition
  obtain ⟨hbound, hrest⟩ := file.available_le v (first + second)
  obtain ⟨-, hfirstRest⟩ := file.available_le v first
  rw [hadd] at hbound hrest
  refine ⟨file.available v first, File.available v
      { file with position := file.position + file.available v first } second,
    fun k => deliveredAt v file.inode (file.position + k),
    fun buffer => ext3Read_eq v file buffer first hposition, ?_, ?_, hbound,
    by omega, ?_, ?_⟩
  · intro buffer
    rw [ext3Read_eq v _ buffer second (by simp only; omega)]
    simp only [Nat.add_assoc]
    rfl
  · intro buffer
    rw [ext3Read_eq v file buffer (first + second) hposition, hadd]
  · intro k hk
    rw [← hadd] at hk
    have hmapped := runLength_pass hk
    refine ⟨_, blockFromInode_eq v file.inode _, by simpa [mappedAt] using hmapped,
      fun hinside => deliveredAt_eq_storedAt hinside⟩
  · intro hshort
    rw [← hadd] at hshort ⊢
    by_cases hend : file.position + file.available v (first + second) =
        file.size
    · exact .inl hend
    · have hmissing := file.available_stop v (first + second) (by omega)
      exact .inr (by rw [blockFromInode_eq, hmissing])

/-- A file of ten bytes in one block, of which four are read. -/
def shortFile : File where
  inodeNum := 3
  position := 4
  size := 10
  flags := 0
  inode := Inode.zero.setBlock 0 6
  path := [47, 102]
  size_lt := by decide

theorem ext3Read_readsOn_shortFile :
    ReadsOn bootCode shortFile 2 20 131072 ∧ shortFile.available bootCode 2 = 2 ∧
      shortFile.available bootCode 22 = 6 :=
  ⟨ext3Read_readsOn bootCode shortFile 2 20 (by decide), by decide, by decide⟩

/-- A drive with one group in blocks of 256 KiB: the descriptor in block 2, the
bitmaps in blocks 3 and 4, the inode table in block 5, and a 1 in the middle of
block 6. -/
def bigBlocks : ByteStore :=
  ofWords [(1028, 1048577), (1044, 1048576), (1048, 8), (1056, 1048577),
    (1064, 16), (1080, 0xEF53), (1112, 128), (524288, 3), (524292, 4),
    (524296, 5), (524300, 0x00010001), (1703936, 1)]

/-- A file of one block of 256 KiB, opened and read up to its middle. -/
def halfRead : File where
  inodeNum := 3
  position := 131072
  size := 262144
  flags := 0
  inode := Inode.zero.setBlock 0 6
  path := [47, 102]
  size_lt := by decide

/-- A read delivers the first half of a block of 256 KiB, and behind it what the
buffer held. -/
theorem ext3Read_bigBlocks :
    ∃ v, initExt3 bigBlocks (fun _ => 0) = .ok (some v) ∧
      halfRead.position ≤ halfRead.size ∧
        ¬ReadsOn v halfRead 1 0 v.blockSize := by
  have hmount : (initExt3 bigBlocks (fun _ => 0)).satisfies (fun found =>
      found.any fun v => v.blockSize = 262144 ∧
        blockFromInode v halfRead.inode 0 = .ok 6 ∧
        v.disk (v.blockBase 6 + 131072) = 1 ∧
        (ext3Read v halfRead (fun _ => 7) 1).satisfies (fun result =>
          result.1 = 1 ∧ result.2.1 0 = 0)) = true := by
    decide +kernel
  obtain ⟨v, hinit, htest⟩ := Outcome.exists_some_of_satisfies hmount
  obtain ⟨hsize, hblock, hstored, hread⟩ := of_decide_eq_true htest
  refine ⟨v, hinit, by decide, ?_⟩
  rintro ⟨count, more, bytes, -, -, hwhole, -, -, hbytes, -⟩
  rw [hwhole (fun _ => 7)] at hread
  obtain ⟨hone, hdelivered⟩ : count + more = 1 ∧
      blit (fun _ => 7) 0 bytes (count + more) 0 = 0 :=
    of_decide_eq_true hread
  rw [blit_inside _ _ le_rfl (by omega)] at hdelivered
  obtain ⟨block, hfound, -, hmiddle⟩ := hbytes 0 (by omega)
  have hplace : halfRead.position + 0 = 131072 := rfl
  rw [hplace, hsize] at hfound hmiddle
  rw [show 131072 / 262144 = 0 from rfl, hblock, Except.ok.injEq] at hfound
  subst hfound
  have hbyte := hmiddle (by norm_num)
  rw [show 131072 % 262144 = 131072 from rfl, hstored, hdelivered] at hbyte
  exact absurd hbyte (by decide)

end Ext3

end ClOs
