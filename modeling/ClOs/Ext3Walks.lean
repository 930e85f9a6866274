import ClOs.Ext3BlockMap
import ClOs.Ext3Directories
import ClOs.Ext3Mounting
import ClOs.ReturningWalks

/-!
# Endless walks over directory entries

The six loops over the entries of a directory add `rec_len` to an offset.  An
entry that is in use lies in a block that has been read, so no addition wraps
around, and a loop goes on for ever exactly when it passes an entry whose
`rec_len` is 0.
-/

namespace ClOs.Ext3

open ByteStore

/-- A walk goes from the entry at `o`, which does not end it, to `next`. -/
def StepsOn (buffer : Buffer) (size : ℕ) (stop : ℕ → Outcome Bool)
    (o next : ℕ) : Prop :=
  o < size ∧ (∃ number, buffer.get32 o = .ok number ∧ number ≠ 0) ∧
    stop o = .ok false ∧
      ∃ recLen, buffer.get16 (o + 4) = .ok recLen ∧ next = u32 (o + recLen)

/-- A walk from `start` reaches an entry that does not end it and whose
`rec_len` is 0. -/
def MeetsEmptyRecord (buffer : Buffer) (size : ℕ) (stop : ℕ → Outcome Bool)
    (start : ℕ) : Prop :=
  ∃ o, Relation.ReflTransGen (StepsOn buffer size stop) start o ∧
    o < size ∧ (∃ number, buffer.get32 o = .ok number ∧ number ≠ 0) ∧
      stop o = .ok false ∧ buffer.get16 (o + 4) = .ok 0

/-- No entry in use stands so high that `rec_len` leads beyond 32 bits. -/
def NoWrap (buffer : Buffer) : Prop :=
  ∀ o, o + 4 ≤ buffer.size → buffer.bytes.le32 o ≠ 0 →
    o + 65536 ≤ 4294967296

section

variable {buffer : Buffer} {size start o next : ℕ} {stop : ℕ → Outcome Bool}

theorem StepsOn.le (h : StepsOn buffer size stop o next)
    (hwrap : NoWrap buffer) : o ≤ next := by
  obtain ⟨-, ⟨number, hnumber, hlive⟩, -, recLen, hrecLen, rfl⟩ := h
  obtain ⟨hroom, hword⟩ := Buffer.get32_eq_ok.1 hnumber
  have hbound := hwrap o hroom (by rwa [hword])
  have hshort := buffer.bytes.le16_lt (o + 4)
  rw [(Buffer.get16_eq_ok.1 hrecLen).2] at hshort
  rw [u32_of_lt (by omega)]
  omega

theorem stepsOn_self_iff (hwrap : NoWrap buffer) :
    StepsOn buffer size stop o o ↔
      o < size ∧ (∃ number, buffer.get32 o = .ok number ∧ number ≠ 0) ∧
        stop o = .ok false ∧ buffer.get16 (o + 4) = .ok 0 := by
  constructor
  · rintro ⟨hsize, ⟨number, hnumber, hlive⟩, hstop, recLen, hrecLen, hsame⟩
    obtain ⟨hroom, hword⟩ := Buffer.get32_eq_ok.1 hnumber
    have hbound := hwrap o hroom (by rwa [hword])
    have hshort := buffer.bytes.le16_lt (o + 4)
    rw [(Buffer.get16_eq_ok.1 hrecLen).2] at hshort
    rw [u32_of_lt (by omega)] at hsame
    have hzero : recLen = 0 := by omega
    subst hzero
    exact ⟨hsize, ⟨number, hnumber, hlive⟩, hstop, hrecLen⟩
  · rintro ⟨hsize, ⟨number, hnumber, hlive⟩, hstop, hrecLen⟩
    obtain ⟨hroom, hword⟩ := Buffer.get32_eq_ok.1 hnumber
    have hbound := hwrap o hroom (by rwa [hword])
    refine ⟨hsize, ⟨number, hnumber, hlive⟩, hstop, 0, hrecLen, ?_⟩
    rw [u32_of_lt (by omega), Nat.add_zero]

/-- Offsets never fall, so a walk that comes back stands still. -/
theorem comesBack_iff_meetsEmptyRecord (hwrap : NoWrap buffer) :
    ComesBack (StepsOn buffer size stop) start ↔
      MeetsEmptyRecord buffer size stop start := by
  constructor
  · rintro ⟨o, hreach, hcycle⟩
    obtain ⟨next, hstep, hrest⟩ := Relation.TransGen.head'_iff.1 hcycle
    have hback : next ≤ o := by
      clear hreach hcycle hstep
      induction hrest with
      | refl => exact le_rfl
      | tail _ hlast ih => exact ih.trans (hlast.le hwrap)
    have hsame : next = o := le_antisymm hback (hstep.le hwrap)
    subst hsame
    exact ⟨next, hreach, (stepsOn_self_iff hwrap).1 hstep⟩
  · rintro ⟨o, hreach, hempty⟩
    exact ⟨o, hreach,
      Relation.TransGen.single ((stepsOn_self_iff hwrap).2 hempty)⟩

/-- A walk with one step more than there are offsets. -/
theorem walksOn_offsets_iff :
    WalksOn (StepsOn buffer size stop) (size + 1) start ↔
      ComesBack (StepsOn buffer size stop) start := by
  have hsources : ∀ o next, StepsOn buffer size stop o next →
      o ∈ Finset.range size :=
    fun o next hstep => Finset.mem_range.2 hstep.1
  exact walksOn_iff_comesBack hsources (by simp)

end

/-! ## What cannot run for ever -/

theorem Outcome.ends_error {α : Type} {halt : Halt} (h : halt ≠ .endless) :
    Outcome.Ends (.error halt : Outcome α) := by
  simpa [Outcome.Ends] using h

/-- What a computation that starts with `first` runs for ever in. -/
theorem bind_endless_iff {α β : Type}
    {first : Outcome α} {rest : α → Outcome β} (hfirst : first.Ends) :
    (first >>= rest) = .error .endless ↔
      ∃ value, first = .ok value ∧ rest value = .error .endless := by
  rw [Outcome.bind_eq_error]
  exact or_iff_right hfirst

theorem bind_endless_iff_first {α β : Type}
    {first : Outcome α} {rest : α → Outcome β}
    (hrest : ∀ value, (rest value).Ends) :
    (first >>= rest) = .error .endless ↔ first = .error .endless := by
  rw [Outcome.bind_eq_error]
  exact or_iff_left fun ⟨value, _, h⟩ => hrest value h

theorem check_ends (buffer : Buffer) (offset count : ℕ) :
    (buffer.check offset count).Ends := by
  unfold Buffer.check
  split_ifs <;> simp [Outcome.Ends]

theorem get8_ends (buffer : Buffer) (offset : ℕ) :
    (buffer.get8 offset).Ends :=
  (check_ends _ _ _).bind fun _ _ => Outcome.ends_ok _

theorem get16_ends (buffer : Buffer) (offset : ℕ) :
    (buffer.get16 offset).Ends :=
  (check_ends _ _ _).bind fun _ _ => Outcome.ends_ok _

theorem get32_ends (buffer : Buffer) (offset : ℕ) :
    (buffer.get32 offset).Ends :=
  (check_ends _ _ _).bind fun _ _ => Outcome.ends_ok _

theorem slice_ends (buffer : Buffer) (offset count : ℕ) :
    (buffer.slice offset count).Ends :=
  (check_ends _ _ _).bind fun _ _ => Outcome.ends_ok _

theorem load_ends
    (buffer : Buffer) (offset : ℕ) (source : ByteStore) (count : ℕ) :
    (buffer.load offset source count).Ends :=
  (check_ends _ _ _).bind fun _ _ => Outcome.ends_ok _

theorem entryBytes_ends (buffer : Buffer) (offset : ℕ) :
    (entryBytes buffer offset).Ends :=
  (get8_ends _ _).bind fun _ _ =>
    (slice_ends _ _ _).bind fun _ _ => Outcome.ends_ok _

theorem hasName_ends (buffer : Buffer) (name : CString) (offset : ℕ) :
    (hasName buffer name offset).Ends :=
  Outcome.Ends.bind
    ((entryBytes_ends buffer offset).bind fun _ _ => Outcome.ends_ok _)
    fun _ _ => Outcome.ends_ok _

section

variable (v : Volume)

theorem inodeToBlock_ends (inode : ℕ) : (inodeToBlock v inode).Ends :=
  (get32_ends _ _).bind fun _ _ => Outcome.ends_ok _

theorem readInode_ends (inode : ℕ) : (readInode v inode).Ends := by
  refine (inodeToBlock_ends v inode).bind fun block _ => ?_
  split_ifs
  · exact Outcome.ends_ok _
  · exact (slice_ends _ _ _).bind fun _ _ => Outcome.ends_error (by decide)
  · exact (slice_ends _ _ _).bind fun _ _ => Outcome.ends_ok _

theorem writeInode_ends (inode : ℕ) (source : Inode) :
    (writeInode v inode source).Ends := by
  refine (inodeToBlock_ends v inode).bind fun block _ => ?_
  split_ifs
  · exact Outcome.ends_ok _
  · exact Outcome.ends_error (by decide)
  · exact (load_ends _ _ _ _).bind fun _ _ => Outcome.ends_ok _

theorem loadBlocks_ends (blocks : List ℕ) (i : ℕ) (buffer : Buffer) :
    (loadBlocks v blocks i buffer).Ends := by
  induction blocks generalizing i buffer with
  | nil => exact Outcome.ends_ok _
  | cons block rest ih => exact (load_ends _ _ _ _).bind fun _ _ => ih _ _

theorem loadDirectory_ends (inode : Inode) (size : ℕ) :
    (loadDirectory v inode size).Ends := by
  unfold loadDirectory
  split
  · exact Outcome.ends_ok _
  · exact (loadBlocks_ends v _ _ _).bind fun _ _ => Outcome.ends_ok _

theorem scanBitmap_ends (buffer : Buffer) (usable : ℕ → Bool) (count i : ℕ) :
    (scanBitmap buffer usable count i).Ends := by
  induction count generalizing i with
  | zero => exact Outcome.ends_ok _
  | succ count ih =>
      refine (get8_ends _ _).bind fun byte _ => ?_
      split_ifs
      · exact ih (i + 1)
      · exact Outcome.ends_ok _

theorem findFreeBit_ends (search : BitSearch) (count g : ℕ) :
    (findFreeBit v search count g).Ends := by
  induction count generalizing g with
  | zero => exact Outcome.ends_ok _
  | succ count ih =>
      refine (get16_ends _ _).bind fun free _ => ?_
      split_ifs
      · exact ih (g + 1)
      · refine (get32_ends _ _).bind fun bitmap _ =>
          (scanBitmap_ends _ _ _ _).bind fun found _ => ?_
        cases found with
        | none => exact ih (g + 1)
        | some i => exact Outcome.ends_ok _

theorem findFreeBlock_ends : (findFreeBlock v).Ends := by
  refine (findFreeBit_ends v _ _ _).bind fun found _ => ?_
  obtain ⟨place, next⟩ := found
  cases place <;> exact Outcome.ends_ok _

theorem putEntry_ends
    (buffer : Buffer) (offset inode recLen type : ℕ) (name : CString) :
    (putEntry buffer offset inode recLen type name).Ends :=
  (check_ends _ _ _).bind fun _ _ => Outcome.ends_ok _

theorem blockSlot_ends (inode : Inode) (k : ℕ) : (blockSlot inode k).Ends := by
  unfold blockSlot
  split_ifs
  · exact Outcome.ends_ok _
  · exact Outcome.ends_error (by decide)

end

/-! ## The loops -/

section

variable {buffer : Buffer} {size start : ℕ} {stop : ℕ → Outcome Bool}

theorem walk_endless_iff
    (hstop : ∀ o, (stop o).Ends) (fuel start : ℕ) :
    walk buffer size stop fuel start = .error .endless ↔
      WalksOn (StepsOn buffer size stop) fuel start := by
  induction fuel generalizing start with
  | zero => simp [walk, WalksOn]
  | succ fuel ih =>
      unfold walk WalksOn StepsOn
      by_cases hend : size ≤ start
      · rw [if_pos hend]
        refine iff_of_false (by simp [pure, Except.pure]) ?_
        rintro ⟨next, ⟨hinside, -⟩, -⟩
        omega
      rw [if_neg hend, bind_endless_iff (get32_ends _ _)]
      constructor
      · rintro ⟨number, hnumber, h⟩
        split_ifs at h with hdead
        · cases h
        rw [bind_endless_iff (hstop start)] at h
        obtain ⟨found, hfound, h⟩ := h
        split_ifs at h with haccept
        · cases h
        rw [bind_endless_iff (get16_ends _ _)] at h
        obtain ⟨recLen, hrecLen, h⟩ := h
        exact ⟨_, ⟨by omega, ⟨number, hnumber, hdead⟩,
          by rw [hfound, Bool.eq_false_iff.2 haccept], recLen, hrecLen, rfl⟩,
          (ih _).1 h⟩
      · rintro ⟨next, ⟨-, ⟨number, hnumber, hlive⟩, hpass, recLen, hrecLen,
          rfl⟩, hrest⟩
        refine ⟨number, hnumber, ?_⟩
        rw [if_neg hlive, hpass]
        simp only [bind, Except.bind, Bool.false_eq_true, if_false, hrecLen]
        exact (ih _).2 hrest

theorem walkDirectory_endless_iff
    (hstop : ∀ o, (stop o).Ends) (hwrap : NoWrap buffer) :
    walkDirectory buffer size stop = .error .endless ↔
      MeetsEmptyRecord buffer size stop 0 := by
  unfold walkDirectory
  rw [walk_endless_iff hstop, walksOn_offsets_iff,
    comesBack_iff_meetsEmptyRecord hwrap]

/-- An entry that is neither `.` nor `..` ends the emptiness check and a call of
`ext3_readdir`. -/
def otherName (buffer : Buffer) (offset : ℕ) : Outcome Bool := do
  return (← entryBytes buffer offset) ∉ dotNames

theorem otherName_ends (buffer : Buffer) (offset : ℕ) :
    (otherName buffer offset).Ends :=
  (entryBytes_ends buffer offset).bind fun _ _ => Outcome.ends_ok _

theorem readEntries_endless_iff (fuel start : ℕ) :
    readEntries buffer size fuel start = .error .endless ↔
      WalksOn (StepsOn buffer size (otherName buffer)) fuel start := by
  induction fuel generalizing start with
  | zero => simp [readEntries, WalksOn]
  | succ fuel ih =>
      unfold readEntries WalksOn StepsOn
      by_cases hend : size ≤ start
      · rw [if_pos hend]
        refine iff_of_false (by simp [pure, Except.pure]) ?_
        rintro ⟨next, ⟨hinside, -⟩, -⟩
        omega
      rw [if_neg hend, bind_endless_iff (get32_ends _ _)]
      constructor
      · rintro ⟨number, hnumber, h⟩
        split_ifs at h with hdead
        · cases h
        rw [bind_endless_iff (entryBytes_ends _ _)] at h
        obtain ⟨name, hname, h⟩ := h
        rw [bind_endless_iff (get16_ends _ _)] at h
        obtain ⟨recLen, hrecLen, h⟩ := h
        split_ifs at h with hdots
        · exact ⟨_, ⟨by omega, ⟨number, hnumber, hdead⟩,
            by simp [otherName, hname, hdots, bind, Except.bind, pure,
              Except.pure],
            recLen, hrecLen, rfl⟩, (ih _).1 h⟩
        · cases h
      · rintro ⟨next, ⟨-, ⟨number, hnumber, hlive⟩, hpass, recLen, hrecLen,
          rfl⟩, hrest⟩
        unfold otherName at hpass
        rw [Outcome.bind_eq_ok] at hpass
        obtain ⟨name, hname, hdots⟩ := hpass
        have hmem : name ∈ dotNames := by
          simpa [pure, Except.pure] using hdots
        refine ⟨number, hnumber, ?_⟩
        rw [if_neg hlive, hname]
        simp only [bind, Except.bind, hrecLen, hmem, if_true]
        exact (ih _).2 hrest

/-- No entry ends `ext3_list_directory`, which reads the inode of each but `.`
and `..`. -/
def listsEntry (v : Volume) (buffer : Buffer) (offset : ℕ) :
    Outcome Bool := do
  let number ← buffer.get32 offset
  let name ← entryBytes buffer offset
  if name ∈ dotNames then return false
  else
    let _ ← readInode v number
    return false

theorem listEntries_endless_iff
    (v : Volume) (fuel start : ℕ) (printed : CString) :
    listEntries v buffer size fuel start printed = .error .endless ↔
      WalksOn (StepsOn buffer size (listsEntry v buffer)) fuel start := by
  induction fuel generalizing start printed with
  | zero => simp [listEntries, WalksOn]
  | succ fuel ih =>
      unfold listEntries WalksOn StepsOn
      by_cases hend : size ≤ start
      · rw [if_pos hend]
        refine iff_of_false (by simp [pure, Except.pure]) ?_
        rintro ⟨next, ⟨hinside, -⟩, -⟩
        omega
      rw [if_neg hend, bind_endless_iff (get32_ends _ _)]
      constructor
      · rintro ⟨number, hnumber, h⟩
        split_ifs at h with hdead
        · cases h
        rw [bind_endless_iff (entryBytes_ends _ _)] at h
        obtain ⟨name, hname, h⟩ := h
        rw [bind_endless_iff (get16_ends _ _)] at h
        obtain ⟨recLen, hrecLen, h⟩ := h
        split_ifs at h with hdots
        · exact ⟨_, ⟨by omega, ⟨number, hnumber, hdead⟩,
            by simp [listsEntry, hnumber, hname, hdots, bind, Except.bind,
              pure, Except.pure],
            recLen, hrecLen, rfl⟩, (ih _ _).1 h⟩
        · rw [bind_endless_iff (readInode_ends _ _)] at h
          obtain ⟨inode, hinode, h⟩ := h
          exact ⟨_, ⟨by omega, ⟨number, hnumber, hdead⟩,
            by simp [listsEntry, hnumber, hname, hdots, hinode, bind,
              Except.bind, pure, Except.pure],
            recLen, hrecLen, rfl⟩, (ih _ _).1 h⟩
      · rintro ⟨next, ⟨-, ⟨number, hnumber, hlive⟩, hpass, recLen, hrecLen,
          rfl⟩, hrest⟩
        unfold listsEntry at hpass
        rw [hnumber, Outcome.bind_eq_ok] at hpass
        obtain ⟨number, hsame, hpass⟩ := hpass
        cases hsame
        rw [Outcome.bind_eq_ok] at hpass
        obtain ⟨name, hname, hpass⟩ := hpass
        refine ⟨number, hnumber, ?_⟩
        rw [if_neg hlive, hname]
        simp only [bind, Except.bind, hrecLen]
        split_ifs at hpass ⊢ with hdots
        · exact (ih _ _).2 hrest
        · rw [Outcome.bind_eq_ok] at hpass
          obtain ⟨inode, hinode, -⟩ := hpass
          rw [hinode]
          exact (ih _ _).2 hrest

end

/-! ## Directories that have been read -/

theorem loadBlocks_size
    {v : Volume} {blocks : List ℕ} {i : ℕ} {buffer next : Buffer}
    (hload : loadBlocks v blocks i buffer = .ok next) :
    next.size = buffer.size := by
  induction blocks generalizing i buffer with
  | nil =>
      cases hload
      rfl
  | cons block rest ih =>
      unfold loadBlocks at hload
      rw [Outcome.bind_eq_ok] at hload
      obtain ⟨middle, hfirst, hrest⟩ := hload
      obtain ⟨-, rfl⟩ := Buffer.load_eq_ok.1 hfirst
      have hsize := ih hrest
      exact hsize

/-- A byte that loading a directory changed lies in one of its blocks. -/
theorem loadBlocks_changed
    {v : Volume} {blocks : List ℕ} {i k : ℕ} {buffer next : Buffer}
    (hload : loadBlocks v blocks i buffer = .ok next)
    (hchanged : next.bytes k ≠ buffer.bytes k) :
    ∃ j < blocks.length, (i + j) * v.blockSize + v.transfer ≤ buffer.size ∧
      k < (i + j) * v.blockSize + v.transfer := by
  induction blocks generalizing i buffer with
  | nil =>
      cases hload
      exact absurd rfl hchanged
  | cons block rest ih =>
      unfold loadBlocks at hload
      rw [Outcome.bind_eq_ok] at hload
      obtain ⟨middle, hfirst, hrest⟩ := hload
      obtain ⟨hroom, rfl⟩ := Buffer.load_eq_ok.1 hfirst
      by_cases hlater : next.bytes k =
          buffer.bytes.blit (i * v.blockSize)
            (readSectors v.disk (blockToLba v block)) v.transfer k
      · refine ⟨0, by simp, by simpa using hroom, ?_⟩
        rw [Nat.add_zero]
        by_contra houtside
        rw [blit_outside _ _ (by omega)] at hlater
        exact hchanged hlater
      · obtain ⟨j, hj, hfits, hk⟩ := ih hrest hlater
        refine ⟨j + 1, by simpa using hj, ?_, ?_⟩
        · rwa [show i + (j + 1) = i + 1 + j by omega]
        · rwa [show i + (j + 1) = i + 1 + j by omega]

/-- A block read into a buffer of less than 4 GiB ends far below its end. -/
theorem transfer_end_lt
    (v : Volume) {size j : ℕ} (hsize : size < 4294967296) (hj : j < 12)
    (hfits : j * v.blockSize + v.transfer ≤ size) :
    j * v.blockSize + v.transfer + 65536 ≤ 4294967296 := by
  have htransfer := v.transfer_eq_min
  rcases Nat.lt_or_ge 131072 v.blockSize with hlarge | hsmall
  · obtain ⟨m, hm⟩ := v.toGeometry.blockSize_dvd
    have hless : j < m := by
      rw [Nat.mul_comm] at hm
      by_contra hge
      have hmul := Nat.mul_le_mul_right v.blockSize (Nat.le_of_not_lt hge)
      omega
    have hmul := Nat.mul_le_mul_right v.blockSize hless
    rw [Nat.succ_mul, Nat.mul_comm m, ← hm] at hmul
    obtain ⟨shift, -, hshift⟩ := v.blockSize_eq
    have hdouble : 262144 ≤ v.blockSize := by
      have height : 8 ≤ shift := by
        by_contra hless
        have hpow : 2 ^ shift ≤ 2 ^ 7 :=
          Nat.pow_le_pow_right (by norm_num) (by omega)
        omega
      have hpow : 2 ^ 8 ≤ 2 ^ shift := Nat.pow_le_pow_right (by norm_num) height
      omega
    omega
  · have hmul : j * v.blockSize ≤ 11 * 131072 :=
      Nat.mul_le_mul (by omega) hsmall
    omega

theorem loadDirectory_noWrap
    {v : Volume} {inode : Inode} {size : ℕ} {buffer : Buffer}
    (hsize : size < 4294967296)
    (hload : loadDirectory v inode size = .ok (some buffer)) :
    NoWrap buffer := by
  intro o hroom hlive
  unfold loadDirectory kmalloc at hload
  split_ifs at hload with hzero
  · cases hload
  simp only at hload
  rw [Outcome.bind_eq_ok] at hload
  obtain ⟨loaded, hblocks, hload⟩ := hload
  cases hload
  obtain ⟨i, hi, hbyte⟩ : ∃ i < 4, buffer.bytes (o + i) ≠ 0 := by
    by_contra hnone
    push Not at hnone
    have h0 := hnone 0 (by omega)
    have h1 := hnone 1 (by omega)
    have h2 := hnone 2 (by omega)
    have h3 := hnone 3 (by omega)
    rw [Nat.add_zero] at h0
    exact hlive (by simp [le32, h0, h1, h2, h3])
  have hbuffer : buffer.size = size := loadBlocks_size hblocks
  have hchanged : buffer.bytes (o + i) ≠
      v.garbage.blit 0 (fun _ => 0) size (o + i) := by
    rwa [blit_inside _ _ (Nat.zero_le _) (by omega)]
  obtain ⟨j, hj, hfits, hk⟩ := loadBlocks_changed hblocks hchanged
  have hcount := inode.directBlocks_length_le
  rw [Nat.zero_add] at hfits hk
  have hend := transfer_end_lt v hsize (by omega) hfits
  omega

/-! ## The six walks -/

/-- The walk over a directory, read into `size` bytes, meets an entry with
`rec_len` 0. -/
def StuckIn (v : Volume) (inode : Inode) (size : ℕ)
    (stop : Buffer → ℕ → Outcome Bool) : Prop :=
  ∃ buffer, loadDirectory v inode size = .ok (some buffer) ∧
    MeetsEmptyRecord buffer inode.size (stop buffer) 0

/-- The size of the buffer of `create_dir_entry`. -/
def insertionSize (v : Volume) (inode : Inode) : ℕ :=
  u32 ((u32 (inode.size + v.blockSize) / v.blockSize + 1) * v.blockSize)

/-- When the walks run for ever: the one of a lookup unless the name comes
first, those of an insertion and a listing whatever the names are, those of the
emptiness check and of `ext3_readdir` when `.` and `..` alone come first. -/
structure WalksForEver (v : Volume) : Prop where
  lookup : ∀ number name,
    findDirEntry v number name = .error .endless ↔
      ∃ inode, readInode v number = .ok inode ∧
        StuckIn v inode (u32 (inode.size + v.blockSize))
          (fun buffer => hasName buffer name)
  insertion : ∀ number name inodeNum type,
    createDirEntry v number name inodeNum type = .error .endless ↔
      ∃ inode, readInode v number = .ok inode ∧
        StuckIn v inode (insertionSize v inode) (fun _ _ => .ok false)
  emptiness : ∀ inode,
    hasEntries v inode = .error .endless ↔
      StuckIn v inode (u32 (inode.size + v.blockSize)) otherName
  removal : ∀ number name,
    removeEntry v number name = .error .endless ↔
      ∃ inode, readInode v number = .ok inode ∧
        StuckIn v inode (u32 (inode.size + v.blockSize))
          (fun buffer => hasName buffer name)
  listing : ∀ path inode number,
    findFile v path = .ok (some (inode, number)) →
      (ext3ListDirectory v path = .error .endless ↔
        inode.isDirectory = true ∧
          StuckIn v inode (u32 (inode.size + v.blockSize)) (listsEntry v))
  iteration : ∀ path dir, ext3Opendir v path = .ok (some dir) →
    ∀ offset, ext3Readdir { dir with currentOffset := offset } =
        .error .endless ↔
      MeetsEmptyRecord dir.buffer dir.size (otherName dir.buffer) offset

section

variable {v : Volume} {inode : Inode} {size : ℕ} {α : Type}
  {rest : Option Buffer → Outcome α} {stop : Buffer → ℕ → Outcome Bool}

/-- A function that loads a directory and walks it runs for ever in the walk. -/
theorem load_endless_iff
    (hsize : size < 4294967296)
    (hnone : (rest none).Ends)
    (hwalk : ∀ buffer, NoWrap buffer →
      (rest (some buffer) = .error .endless ↔
        MeetsEmptyRecord buffer inode.size (stop buffer) 0)) :
    (loadDirectory v inode size >>= rest) = .error .endless ↔
      StuckIn v inode size stop := by
  rw [bind_endless_iff (loadDirectory_ends v inode size)]
  constructor
  · rintro ⟨found, hload, h⟩
    cases found with
    | none => exact absurd h hnone
    | some buffer =>
        exact ⟨buffer, hload,
          (hwalk buffer (loadDirectory_noWrap hsize hload)).1 h⟩
  · rintro ⟨buffer, hload, h⟩
    exact ⟨some buffer, hload,
      (hwalk buffer (loadDirectory_noWrap hsize hload)).2 h⟩

end

theorem findDirEntry_endless_iff (v : Volume) (number : ℕ) (name : CString) :
    findDirEntry v number name = .error .endless ↔
      ∃ inode, readInode v number = .ok inode ∧
        StuckIn v inode (u32 (inode.size + v.blockSize))
          (fun buffer => hasName buffer name) := by
  unfold findDirEntry
  rw [bind_endless_iff (readInode_ends v number)]
  refine exists_congr fun inode => and_congr_right fun _ => ?_
  refine load_endless_iff (u32_lt _) (Outcome.ends_ok _) fun buffer hwrap => ?_
  rw [← walkDirectory_endless_iff (hasName_ends buffer name) hwrap]
  refine bind_endless_iff_first fun ⟨offset, found⟩ => ?_
  dsimp only
  split_ifs
  · exact (slice_ends _ _ _).bind fun _ _ => Outcome.ends_ok _
  · exact Outcome.ends_ok _

theorem createDirEntry_endless_iff
    (v : Volume) (number : ℕ) (name : CString) (inodeNum type : ℕ) :
    createDirEntry v number name inodeNum type = .error .endless ↔
      ∃ inode, readInode v number = .ok inode ∧
        StuckIn v inode (insertionSize v inode) (fun _ _ => .ok false) := by
  unfold createDirEntry
  rw [bind_endless_iff (readInode_ends v number)]
  refine exists_congr fun inode => and_congr_right fun _ => ?_
  refine load_endless_iff (u32_lt _) (Outcome.ends_ok _) fun buffer hwrap => ?_
  have hwalk : walkDirectory buffer inode.size (fun _ => .ok false) =
        .error .endless ↔
      MeetsEmptyRecord buffer inode.size (fun _ => .ok false) 0 :=
    walkDirectory_endless_iff (fun _ => Outcome.ends_ok _) hwrap
  rw [← hwalk]
  refine bind_endless_iff_first fun ⟨offset, found⟩ => ?_
  refine (putEntry_ends _ _ _ _ _ _).bind fun filled _ => ?_
  dsimp only
  split_ifs
  · refine (findFreeBlock_ends v).bind fun ⟨newBlock, taken⟩ _ => ?_
    dsimp only
    split_ifs
    · exact Outcome.ends_ok _
    · exact (writeInode_ends _ _ _).bind fun _ _ =>
        (slice_ends _ _ _).bind fun _ _ =>
          (writeInode_ends _ _ _).bind fun _ _ => Outcome.ends_ok _
  · exact (blockSlot_ends _ _).bind fun _ _ =>
      (slice_ends _ _ _).bind fun _ _ =>
        (writeInode_ends _ _ _).bind fun _ _ => Outcome.ends_ok _

theorem hasEntries_endless_iff (v : Volume) (inode : Inode) :
    hasEntries v inode = .error .endless ↔
      StuckIn v inode (u32 (inode.size + v.blockSize)) otherName := by
  unfold hasEntries
  refine load_endless_iff (u32_lt _) (Outcome.ends_ok _) fun buffer hwrap => ?_
  rw [← walkDirectory_endless_iff (otherName_ends buffer) hwrap]
  exact bind_endless_iff_first fun ⟨_, _⟩ => Outcome.ends_ok _

theorem removeEntry_endless_iff (v : Volume) (number : ℕ) (name : CString) :
    removeEntry v number name = .error .endless ↔
      ∃ inode, readInode v number = .ok inode ∧
        StuckIn v inode (u32 (inode.size + v.blockSize))
          (fun buffer => hasName buffer name) := by
  unfold removeEntry
  rw [bind_endless_iff (readInode_ends v number)]
  refine exists_congr fun inode => and_congr_right fun _ => ?_
  refine load_endless_iff (u32_lt _) (Outcome.ends_ok _) fun buffer hwrap => ?_
  rw [← walkDirectory_endless_iff (hasName_ends buffer name) hwrap]
  refine bind_endless_iff_first fun ⟨offset, found⟩ => ?_
  dsimp only
  split_ifs
  · exact (blockSlot_ends _ _).bind fun _ _ =>
      (slice_ends _ _ _).bind fun _ _ => Outcome.ends_ok _
  · exact Outcome.ends_ok _

theorem ext3ListDirectory_endless_iff
    {v : Volume} {path : CString} {inode : Inode} {number : ℕ}
    (hfind : findFile v path = .ok (some (inode, number))) :
    ext3ListDirectory v path = .error .endless ↔
      inode.isDirectory = true ∧
        StuckIn v inode (u32 (inode.size + v.blockSize)) (listsEntry v) := by
  unfold ext3ListDirectory
  simp only [hfind, bind_endless_iff (Outcome.ends_ok _), Except.ok.injEq,
    exists_eq_left']
  split_ifs with hdirectory
  · rw [hdirectory, eq_self, true_and]
    refine load_endless_iff (u32_lt _) (Outcome.ends_ok _)
      fun buffer hwrap => ?_
    rw [← comesBack_iff_meetsEmptyRecord hwrap, ← walksOn_offsets_iff,
      ← listEntries_endless_iff v (inode.size + 1) 0
        (asciiBytes "Contents:\n")]
    exact bind_endless_iff_first fun _ => Outcome.ends_ok _
  · exact iff_of_false (Outcome.ends_ok _) fun h => hdirectory h.1

theorem ext3Readdir_endless_iff
    {v : Volume} {path : CString} {dir : Dir}
    (hopen : ext3Opendir v path = .ok (some dir)) (offset : ℕ) :
    ext3Readdir { dir with currentOffset := offset } = .error .endless ↔
      MeetsEmptyRecord dir.buffer dir.size (otherName dir.buffer) offset := by
  have hwrap : NoWrap dir.buffer := by
    unfold ext3Opendir at hopen
    rw [Outcome.bind_eq_ok] at hopen
    obtain ⟨found, -, hopen⟩ := hopen
    cases found with
    | none => cases hopen
    | some pair =>
        obtain ⟨inode, number⟩ := pair
        simp only at hopen
        split_ifs at hopen with hdirectory
        · rw [Outcome.bind_eq_ok] at hopen
          obtain ⟨loaded, hload, hopen⟩ := hopen
          cases loaded with
          | none => cases hopen
          | some buffer =>
              cases hopen
              exact loadDirectory_noWrap (u32_lt _) hload
        · cases hopen
  unfold ext3Readdir
  rw [← comesBack_iff_meetsEmptyRecord hwrap, ← walksOn_offsets_iff,
    ← readEntries_endless_iff]
  exact bind_endless_iff_first fun ⟨_, _⟩ => Outcome.ends_ok _

theorem walksForEver (v : Volume) : WalksForEver v where
  lookup := findDirEntry_endless_iff v
  insertion := createDirEntry_endless_iff v
  emptiness := hasEntries_endless_iff v
  removal := removeEntry_endless_iff v
  listing _ _ _ hfind := ext3ListDirectory_endless_iff hfind
  iteration _ _ hopen offset := ext3Readdir_endless_iff hopen offset

/-- The root directory has one entry, `a`, of length 0. -/
def zeroRecord : Volume where
  toGeometry := smallGeometry
  disk := ofWords [(2056, 5), (5248, 0x41ED), (5252, 16), (5288, 7),
    (7168, 12), (7172, 0x01010000), (7176, 0x61)]
  garbage := fun _ => 0

/-- A lookup of `b` never ends. -/
theorem findDirEntry_zeroRecord :
    findDirEntry zeroRecord rootInode [98] = .error .endless := by
  decide +kernel

end ClOs.Ext3
