import ClOs.Fat32Paths
import Mathlib.Data.List.GetD

/-!
# Names and new entries

What `filename_to_fat32` makes of a path component, and what the fields of an entry
are that the driver creates.
-/

namespace ClOs.Fat32

open ByteStore

section

variable {name : CString} {e f : Entry} {attrs first size cluster i k : ℕ}

/-! ## Names -/

theorem upper_toNat (c : UInt8) :
    (upper c).toNat =
      if 97 ≤ c.toNat ∧ c.toNat ≤ 122 then c.toNat - 32 else c.toNat := by
  unfold upper
  simp only [UInt8.le_iff_toNat_le]
  split_ifs with h h' h'
  · rw [UInt8.toNat_sub_of_le]
    · rfl
    · rw [UInt8.le_iff_toNat_le]
      have : (32 : UInt8).toNat = 32 := rfl
      omega
  · exact absurd h h'
  · exact absurd h' h
  · rfl

theorem upper_ne_zero {c : UInt8} (h : c ≠ 0) : upper c ≠ 0 := by
  intro hzero
  have hupper := upper_toNat c
  rw [hzero] at hupper
  refine h (UInt8.toNat.inj ?_)
  have hnone : (0 : UInt8).toNat = 0 := rfl
  split_ifs at hupper <;> omega

theorem upper_ne_dot {c : UInt8} (h : c ≠ dot) : upper c ≠ dot := by
  intro hdot
  have hupper := upper_toNat c
  rw [hdot] at hupper
  refine h (UInt8.toNat.inj ?_)
  have hvalue : dot.toNat = 46 := rfl
  split_ifs at hupper <;> omega

theorem pad_length (count : ℕ) (text : CString) :
    (pad count text).length = count := by
  unfold pad
  simp

theorem filenameToFat32_length (name : CString) :
    (filenameToFat32 name).length = 11 := by
  unfold filenameToFat32
  rw [List.length_append, pad_length, pad_length]

/-- The first byte of a name: a blank, or the first character in front of a dot. -/
theorem filenameToFat32_head (name : CString) :
    (filenameToFat32 name).head? =
      some (((name.takeWhile (· ≠ dot)).head?.map upper).getD 32) := by
  unfold filenameToFat32 pad
  cases name.takeWhile (· ≠ dot) <;> rfl

theorem filenameToFat32_head_ne_zero
    (hname : 0 ∉ name) : (filenameToFat32 name).head? ≠ some 0 := by
  rw [filenameToFat32_head]
  cases htake : name.takeWhile (· ≠ dot) with
  | nil => simp
  | cons c rest =>
      have hmem : c ∈ name.takeWhile (· ≠ dot) := by
        rw [htake]
        exact List.mem_cons_self
      have hc : c ≠ 0 := by
        rintro rfl
        exact hname ((List.takeWhile_prefix _).subset hmem)
      simpa using upper_ne_zero hc

/-- No path component stands for `.` or `..`. -/
theorem filenameToFat32_notMem_dotNames (name : CString) :
    filenameToFat32 name ∉ dotNames := by
  intro hmem
  have hdots : ∀ n ∈ dotNames, n.head? = some dot := by decide
  have hhead := hdots _ hmem
  rw [filenameToFat32_head, Option.some.injEq] at hhead
  cases htake : name.takeWhile (· ≠ dot) with
  | nil =>
      rw [htake] at hhead
      exact absurd hhead (by decide)
  | cons c rest =>
      have hc : c ∈ name.takeWhile (· ≠ dot) := by
        rw [htake]
        exact List.mem_cons_self
      have hne := List.mem_takeWhile_imp hc
      rw [htake] at hhead
      exact upper_ne_dot (by simpa using hne) (by simpa using hhead)

/-- The first byte decides whether a slot is used. -/
theorem Entry.name_head (e : Entry) : e.name.head? = some (e 0) := rfl

theorem Entry.isEnd_iff : e.isEnd = true ↔ e.name.head? = some 0 := by
  simp [Entry.isEnd, Entry.name_head]

theorem Entry.isDeleted_iff : e.isDeleted = true ↔ e.name.head? = some 0xE5 := by
  simp [Entry.isDeleted, Entry.name_head]

theorem Entry.isDeleted_congr (h : e.name = f.name) : e.isDeleted = f.isDeleted := by
  rw [Bool.eq_iff_iff, Entry.isDeleted_iff, Entry.isDeleted_iff, h]

/-! ## New entries -/

theorem blit_name
    (store : ByteStore) {n : List UInt8} (hn : n.length = 11) :
    Entry.name (store.blit 0 (fun k => n.getD k 0) 11) = n := by
  unfold Entry.name
  refine List.ext_getElem (by simp [hn]) fun k hk hk' => ?_
  rw [List.getElem_map, List.getElem_range,
    blit_inside _ _ (Nat.zero_le k) (by omega), Nat.sub_zero,
    List.getD_eq_getElem _ _ hk']

theorem Entry.name_congr (h : ∀ k < 11, e k = f k) : e.name = f.name := by
  unfold Entry.name
  exact List.map_congr_left fun k hk => h k (List.mem_range.1 hk)

theorem newEntry_name (name : CString) (attrs first size : ℕ) :
    (newEntry name attrs first size).name = filenameToFat32 name := by
  rw [← blit_name (fun _ => 0) (filenameToFat32_length name)]
  refine Entry.name_congr fun k hk => ?_
  unfold newEntry
  rw [put32_outside _ (by omega), put16_outside _ (by omega),
    put16_outside _ (by omega), put8_apply_of_ne _ (by omega)]

theorem newEntry_attributes (hattrs : attrs < 256) :
    (newEntry name attrs first size).attributes = attrs := by
  unfold newEntry Entry.attributes
  rw [put32_outside _ (by omega), put16_outside _ (by omega),
    put16_outside _ (by omega), put8_same]
  exact UInt8.toNat_ofNat_of_lt hattrs

theorem newEntry_isLongName
    (hattrs : attrs < 256) (hflags : attrs &&& 0x0F ≠ 0x0F) :
    (newEntry name attrs first size).isLongName = false := by
  unfold Entry.isLongName
  rw [newEntry_attributes hattrs, decide_eq_false hflags]

theorem newEntry_isDirectory (hattrs : attrs < 256) :
    (newEntry name attrs first size).isDirectory =
      decide (attrs &&& 0x10 ≠ 0) := by
  unfold Entry.isDirectory
  rw [newEntry_attributes hattrs]

theorem newEntry_size (hsize : size < 4294967296) :
    (newEntry name attrs first size).size = size := by
  unfold newEntry Entry.size
  rw [le32_put32_same, u32_of_lt hsize]

theorem newEntry_firstCluster (hfirst : first < 4294967296) :
    (newEntry name attrs first size).firstCluster = first := by
  unfold newEntry
  generalize ((blit (fun _ => 0) 0 (fun k => (filenameToFat32 name).getD k 0)
    11).put8 11 attrs) = store
  refine Entry.firstCluster_eq hfirst ?_ ?_
  · have hkeep : (((store.put16 20 (first >>> 16 &&& 0xFFFF)).put16 26
        (first &&& 0xFFFF)).put32 28 size).le16 26 =
          ((store.put16 20 (first >>> 16 &&& 0xFFFF)).put16 26
            (first &&& 0xFFFF)).le16 26 :=
      (blit_agreeOn _ _ (.inl (le_refl 28))).le16_eq 26 le_rfl (le_refl 28)
    rw [hkeep, le16_put16_same]
  · have hkeep : (((store.put16 20 (first >>> 16 &&& 0xFFFF)).put16 26
        (first &&& 0xFFFF)).put32 28 size).le16 20 =
          (store.put16 20 (first >>> 16 &&& 0xFFFF)).le16 20 :=
      ((blit_agreeOn _ _ (.inl (by omega : 22 ≤ 28))).trans
        (blit_agreeOn _ _ (.inl (by omega : 22 ≤ 26)))).le16_eq 20 le_rfl
          (le_refl 22)
    rw [hkeep, le16_put16_same]

theorem newEntry_outside (hk : 32 ≤ k) :
    newEntry name attrs first size k = 0 := by
  unfold newEntry
  rw [put32_outside _ (by omega), put16_outside _ (by omega),
    put16_outside _ (by omega), put8_apply_of_ne _ (by omega),
    blit_outside _ _ (by omega)]

theorem newEntry_isEnd (hname : 0 ∉ name) :
    (newEntry name attrs first size).isEnd = false := by
  rw [Bool.eq_false_iff, ne_eq, Entry.isEnd_iff, newEntry_name]
  exact filenameToFat32_head_ne_zero hname

theorem dotEntry_name
    {n : List UInt8} (hn : n.length = 11) (cluster : ℕ) :
    (dotEntry n cluster).name = n := by
  rw [← blit_name (fun _ => 0) hn]
  refine Entry.name_congr fun k hk => ?_
  unfold dotEntry
  rw [put16_outside _ (by omega), put16_outside _ (by omega),
    put8_apply_of_ne _ (by omega), blit_name (fun _ => 0) hn]

theorem dotEntry_outside
    {n : List UInt8} (hk : 32 ≤ k) : dotEntry n cluster k = 0 := by
  unfold dotEntry
  rw [put16_outside _ (by omega), put16_outside _ (by omega),
    put8_apply_of_ne _ (by omega), blit_outside _ _ (by omega)]

end

end ClOs.Fat32
