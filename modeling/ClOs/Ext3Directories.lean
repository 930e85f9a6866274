import ClOs.Ext3Groups
import ClOs.RecordChain

/-!
# Directories of an ext3 volume

A directory is read into one buffer and walked entry by entry.  Here the
buffer is replaced by the bytes of the directory on disk and the walk by a
chain of records, and `find_dir_entry` and the last part of `ext3_delete` are
computed from the two.
-/

namespace ClOs.Ext3

open ByteStore

/-! ## Direct blocks -/

theorem Inode.directBlocks_length_le (inode : Inode) :
    inode.directBlocks.length ≤ 12 := by
  have h := (List.takeWhile_prefix (fun b => decide (b ≠ 0))
    (l := (List.range 12).map inode.block)).length_le
  simpa [Inode.directBlocks] using h

theorem Inode.directBlocks_getElem? (inode : Inode) {j b : ℕ}
    (h : inode.directBlocks[j]? = some b) :
    b = inode.block j ∧ j < 12 ∧ b ≠ 0 := by
  have hmem : b ∈ inode.directBlocks := List.mem_of_getElem? h
  have hlead := List.takeWhile_prefix (fun b => decide (b ≠ 0))
    (l := (List.range 12).map inode.block)
  obtain ⟨tail, htail⟩ := hlead
  have hj := (List.getElem?_eq_some_iff.1 h).1
  have hlength := inode.directBlocks_length_le
  have hwhole : ((List.range 12).map inode.block)[j]? = some b := by
    rw [← htail]
    exact (List.getElem?_append_left hj).trans h
  rw [List.getElem?_map, List.getElem?_range (by omega)] at hwhole
  simp only [Option.map_some, Option.some.injEq] at hwhole
  have hne := List.mem_takeWhile_imp hmem
  exact ⟨hwhole.symm, by omega, by simpa using hne⟩

/-- The directory on disk as one byte store, 0 behind its blocks. -/
def dirBytes (v : Volume) (inode : Inode) : ByteStore := fun k =>
  match inode.directBlocks[k / v.blockSize]? with
  | some block => v.disk (v.blockBase block + k % v.blockSize)
  | none => 0

/-- The address on disk of byte `k` of a directory. -/
def dirAddress (v : Volume) (inode : Inode) (k : ℕ) : ℕ :=
  v.blockBase (inode.block (k / v.blockSize)) + k % v.blockSize

theorem loadBlocks_ok
    {v : Volume} {blocks : List ℕ} {i : ℕ} {buffer : Buffer}
    (hsize : v.blockSize ≤ 65536)
    (hfits : (i + blocks.length) * v.blockSize ≤ buffer.size) :
    ∃ next, loadBlocks v blocks i buffer = .ok next := by
  induction blocks generalizing i buffer with
  | nil => exact ⟨buffer, rfl⟩
  | cons block rest ih =>
      simp only [List.length_cons] at hfits
      have hroom : i * v.blockSize + v.transfer ≤ buffer.size := by
        rw [v.transfer_eq (by omega), ← Nat.succ_mul]
        exact (Nat.mul_le_mul_right _ (by omega)).trans hfits
      let filled : Buffer :=
        { buffer with
          bytes := buffer.bytes.blit (i * v.blockSize)
            (readSectors v.disk (blockToLba v block)) v.transfer }
      have hload : buffer.load (i * v.blockSize)
          (readSectors v.disk (blockToLba v block)) v.transfer =
            .ok filled := Buffer.load_eq_ok.2 ⟨hroom, rfl⟩
      simp only [loadBlocks, hload, bind, Except.bind]
      apply ih
      simpa [Nat.add_assoc, Nat.add_comm 1] using hfits

theorem loadBlocks_spec
    {v : Volume} {blocks : List ℕ} {i : ℕ} {buffer next : Buffer}
    (hsize : v.blockSize ≤ 65536)
    (hload : loadBlocks v blocks i buffer = .ok next) :
    next.size = buffer.size ∧
      (∀ k < i * v.blockSize, next.bytes k = buffer.bytes k) ∧
      (∀ j block, blocks[j]? = some block → ∀ k < v.blockSize,
        (i + j) * v.blockSize + v.blockSize ≤ buffer.size ∧
          next.bytes ((i + j) * v.blockSize + k) =
            v.disk (v.blockBase block + k)) ∧
      ∀ k, (i + blocks.length) * v.blockSize ≤ k →
        next.bytes k = buffer.bytes k := by
  induction blocks generalizing i buffer with
  | nil =>
      simp only [loadBlocks, pure, Except.pure, Except.ok.injEq] at hload
      subst hload
      simp
  | cons block rest ih =>
      simp only [loadBlocks] at hload
      rw [Outcome.bind_eq_ok] at hload
      obtain ⟨middle, hfirst, hrest⟩ := hload
      obtain ⟨hroom, rfl⟩ := Buffer.load_eq_ok.1 hfirst
      rw [v.transfer_eq (by omega)] at hroom
      obtain ⟨hsame, hbefore, hinside, hbehind⟩ := ih hrest
      rw [v.transfer_eq (by omega)] at hbefore hbehind
      simp only at hsame hbefore hinside hbehind
      have hsucc : (i + 1) * v.blockSize = i * v.blockSize + v.blockSize :=
        Nat.succ_mul _ _
      refine ⟨hsame, ?_, ?_, ?_⟩
      · intro k hk
        rw [hbefore k (by omega), blit_outside _ _ (by omega)]
      · intro j other hother k hk
        cases j with
        | zero =>
            simp only [List.getElem?_cons_zero, Option.some.injEq] at hother
            subst hother
            refine ⟨by simpa using hroom, ?_⟩
            rw [Nat.add_zero, hbefore _ (by omega),
              blit_inside _ _ (by omega) (by omega), Nat.add_sub_cancel_left]
            rfl
        | succ j =>
            simp only [List.getElem?_cons_succ] at hother
            have hlater := hinside j other hother k hk
            rwa [Nat.add_right_comm i 1 j, Nat.add_assoc i j 1] at hlater
      · intro k hk
        simp only [List.length_cons] at hk
        have hlength : (i + 1 + rest.length) * v.blockSize ≤ k := by
          rwa [Nat.add_right_comm i 1, Nat.add_assoc i]
        have hstart : (i + 1) * v.blockSize ≤
            (i + 1 + rest.length) * v.blockSize :=
          Nat.mul_le_mul_right _ (by omega)
        rw [hbehind k hlength, blit_outside _ _ (by omega)]

/-- What `kmalloc`, `memset` and the reads leave in the buffer. -/
theorem loadDirectory_some
    {v : Volume} {inode : Inode} {size : ℕ} {buffer : Buffer}
    (hsize : v.blockSize ≤ 65536)
    (hload : loadDirectory v inode size = .ok (some buffer)) :
    buffer.size = size ∧
      inode.directBlocks.length * v.blockSize ≤ size ∧
      ∀ k < size, buffer.bytes k = dirBytes v inode k := by
  have hpos := v.blockSize_pos
  unfold loadDirectory kmalloc at hload
  split_ifs at hload with hzero
  · simp [pure, Except.pure] at hload
  · simp only at hload
    rw [Outcome.bind_eq_ok] at hload
    obtain ⟨loaded, hblocks, hload⟩ := hload
    simp only [pure, Except.pure, Except.ok.injEq,
      Option.some.injEq] at hload
    subst hload
    obtain ⟨hsame, -, hinside, hbehind⟩ := loadBlocks_spec hsize hblocks
    simp only [Nat.zero_add] at hsame hinside hbehind
    refine ⟨hsame, ?_, ?_⟩
    · rcases Nat.eq_zero_or_pos inode.directBlocks.length with hnone | hsome
      · simp [hnone]
      · have hlast : inode.directBlocks[inode.directBlocks.length - 1]? =
            some _ := List.getElem?_eq_getElem (by omega)
        have hroom := (hinside _ _ hlast 0 hpos).1
        rwa [← Nat.succ_mul, Nat.succ_eq_add_one,
          Nat.sub_add_cancel hsome] at hroom
    · intro k hk
      have hsplit := Nat.div_add_mod' k v.blockSize
      cases hblock : inode.directBlocks[k / v.blockSize]? with
      | some block =>
          have hbyte := (hinside _ block hblock _
            (Nat.mod_lt k hpos)).2
          rw [hsplit] at hbyte
          simp only [dirBytes, hblock]
          exact hbyte
      | none =>
          have hlength := List.getElem?_eq_none_iff.1 hblock
          have hfar : inode.directBlocks.length * v.blockSize ≤ k :=
            (Nat.mul_le_mul_right _ hlength).trans (by omega)
          simp only [dirBytes, hblock]
          rw [hbehind k hfar, blit_inside _ _ (Nat.zero_le k) (by omega)]

theorem loadDirectory_ok
    {v : Volume} {inode : Inode} {size : ℕ}
    (hsize : v.blockSize ≤ 65536)
    (hpos : 0 < size)
    (hfits : inode.directBlocks.length * v.blockSize ≤ size) :
    ∃ buffer, loadDirectory v inode size = .ok (some buffer) := by
  have hne : size ≠ 0 := by omega
  obtain ⟨next, hnext⟩ : ∃ next,
      loadBlocks v inode.directBlocks 0
        { size := size, bytes := v.garbage.blit 0 (fun _ => 0) size } =
          .ok next :=
    loadBlocks_ok hsize (by simpa using hfits)
  exact ⟨next, by
    simp [loadDirectory, kmalloc, hne, hnext, bind, Except.bind, pure,
      Except.pure]⟩

/-! ## The walk -/

def nameLength (bytes : ByteStore) (o : ℕ) : ℕ := (bytes (o + 6)).toNat

def nameAt (bytes : ByteStore) (o : ℕ) : CString :=
  ((List.range (nameLength bytes o)).map
    (bytes.drop (o + 8))).takeWhile (· ≠ 0)

/-- The entries of a directory that a walk sees. -/
abbrev EntryChain (bytes : ByteStore) (size : ℕ) :
    ℕ → List ℕ → ℕ → Prop :=
  RecordChain (fun o => bytes.le32 o ≠ 0) (fun o => bytes.le16 (o + 4)) size

theorem nameLength_lt (bytes : ByteStore) (o : ℕ) :
    nameLength bytes o < 256 := (bytes (o + 6)).toNat_lt

theorem entryBytes_eq
    {buffer : Buffer} {o : ℕ} (hroom : o + 263 ≤ buffer.size) :
    entryBytes buffer o = .ok ((List.range
      (nameLength buffer.bytes o)).map (buffer.bytes.drop (o + 8))) := by
  have hlength := nameLength_lt buffer.bytes o
  have hget : buffer.get8 (o + 6) = .ok (nameLength buffer.bytes o) :=
    Buffer.get8_eq_ok.2 ⟨by omega, rfl⟩
  have hslice : buffer.slice (o + 8) (nameLength buffer.bytes o) =
      .ok (buffer.bytes.drop (o + 8)) :=
    Buffer.slice_eq_ok.2 ⟨by omega, rfl⟩
  simp [entryBytes, hget, hslice, bind, Except.bind, pure, Except.pure]

theorem hasName_eq
    {buffer : Buffer} {o : ℕ} (name : CString)
    (hroom : o + 263 ≤ buffer.size) :
    hasName buffer name o =
      .ok (decide (nameAt buffer.bytes o = name)) := by
  simp [hasName, entryName, entryBytes_eq hroom, nameAt, bind, Except.bind,
    pure, Except.pure]

theorem walk_eq_find?
    {buffer : Buffer} {size fuel start last : ℕ} {offsets : List ℕ}
    {stop : ℕ → Outcome Bool} {test : ℕ → Bool}
    (hchain : EntryChain buffer.bytes size start offsets last)
    (hroom : ∀ o ∈ offsets,
      o + 8 ≤ buffer.size ∧ o + 65536 ≤ 4294967296)
    (hlast : last < size → last + 4 ≤ buffer.size)
    (hstop : ∀ o ∈ offsets, stop o = .ok (test o))
    (hfuel : offsets.length < fuel) :
    walk buffer size stop fuel start =
      match offsets.find? test with
      | some o => .ok (o, true)
      | none => .ok (last, false) := by
  induction hchain generalizing fuel with
  | @stop o hend =>
      obtain ⟨fuel, rfl⟩ : ∃ n, fuel = n + 1 := ⟨fuel - 1, by omega⟩
      simp only [walk, List.find?_nil]
      split_ifs with hsizeo
      · rfl
      · have hget : buffer.get32 o = .ok (buffer.bytes.le32 o) :=
          Buffer.get32_eq_ok.2 ⟨hlast (by omega), rfl⟩
        have hzero : buffer.bytes.le32 o = 0 := by
          rcases hend with hend | hdead
          · omega
          · simpa using hdead
        simp [hget, hzero, bind, Except.bind, pure, Except.pure]
  | @cons o last rest hinside hlive hstep hrest ih =>
      obtain ⟨fuel, rfl⟩ : ∃ n, fuel = n + 1 :=
        ⟨fuel - 1, by simp only [List.length_cons] at hfuel; omega⟩
      obtain ⟨hplace, hbelow⟩ := hroom o (by simp)
      have hget : buffer.get32 o = .ok (buffer.bytes.le32 o) :=
        Buffer.get32_eq_ok.2 ⟨by omega, rfl⟩
      have hne : buffer.bytes.le32 o ≠ 0 := by simpa using hlive
      have hlen : buffer.get16 (o + 4) = .ok (buffer.bytes.le16 (o + 4)) :=
        Buffer.get16_eq_ok.2 ⟨by omega, rfl⟩
      have hbound := buffer.bytes.le16_lt (o + 4)
      have hnext : u32 (o + buffer.bytes.le16 (o + 4)) =
          o + buffer.bytes.le16 (o + 4) := u32_of_lt (by omega)
      have hnot : ¬size ≤ o := by omega
      cases htest : test o with
      | true =>
          simp [walk, hnot, hget, hne, hstop o (by simp), htest, bind,
            Except.bind, pure, Except.pure]
      | false =>
          have hih := @ih fuel
            (fun o' ho' => hroom o' (by simp [ho'])) hlast
            (fun o' ho' => hstop o' (by simp [ho']))
            (by simpa using hfuel)
          simp [walk, hnot, hget, hne, hstop o (by simp), htest, hlen,
            hnext, hih, bind, Except.bind]

/-- Where a walk stops, there is an entry. -/
theorem walk_found
    {buffer : Buffer} {size fuel start o : ℕ}
    {stop : ℕ → Outcome Bool}
    (hwalk : walk buffer size stop fuel start = .ok (o, true)) :
    o < size ∧ o + 4 ≤ buffer.size ∧ buffer.bytes.le32 o ≠ 0 ∧
      stop o = .ok true := by
  induction fuel generalizing start with
  | zero => simp [walk] at hwalk
  | succ fuel ih =>
      simp only [walk] at hwalk
      split_ifs at hwalk with hend
      · simp [pure, Except.pure] at hwalk
      · rw [Outcome.bind_eq_ok] at hwalk
        obtain ⟨number, hget, hwalk⟩ := hwalk
        obtain ⟨hroom, hnumber⟩ := Buffer.get32_eq_ok.1 hget
        split_ifs at hwalk with hzero
        · simp [pure, Except.pure] at hwalk
        · rw [Outcome.bind_eq_ok] at hwalk
          obtain ⟨accepted, hstop, hwalk⟩ := hwalk
          split_ifs at hwalk with haccepted
          · simp only [pure, Except.pure, Except.ok.injEq, Prod.mk.injEq,
              and_true] at hwalk
            subst hwalk
            rw [haccepted] at hstop
            exact ⟨by omega, hroom, by rwa [hnumber], hstop⟩
          · rw [Outcome.bind_eq_ok] at hwalk
            obtain ⟨recLen, -, hwalk⟩ := hwalk
            exact ih hwalk

/-! ## Looking a name up -/

/-- A directory whose walk meets the entries at `offsets` and ends at `last`:
its blocks fit the buffer, every entry holds its name, stands with its first 8
bytes in one block, and has a name. -/
structure Directory (v : Volume) (inode : Inode) (offsets : List ℕ)
    (last : ℕ) : Prop where
  size_lt : inode.size + 131072 ≤ 4294967296
  fits : inode.directBlocks.length * v.blockSize ≤ inode.size + v.blockSize
  chain : EntryChain (dirBytes v inode) inode.size 0 offsets last
  holdsName : ∀ o ∈ offsets, 8 + nameLength (dirBytes v inode) o ≤
    (dirBytes v inode).le16 (o + 4)
  inBlock : ∀ o ∈ offsets, o % v.blockSize + 8 ≤ v.blockSize
  named : ∀ o ∈ offsets, nameAt (dirBytes v inode) o ≠ []

/-- The buffer of `find_dir_entry`, `ext3_delete` and `ext3_opendir`. -/
theorem Directory.load
    {v : Volume} {inode : Inode} {offsets : List ℕ} {last : ℕ}
    (h : Directory v inode offsets last)
    (hsize : v.blockSize ≤ 65536) :
    ∃ buffer, loadDirectory v inode (u32 (inode.size + v.blockSize)) =
        .ok (some buffer) ∧
      buffer.size = inode.size + v.blockSize ∧
      ∀ k < inode.size + v.blockSize,
        buffer.bytes k = dirBytes v inode k := by
  have hpos := v.blockSize_pos
  have hlt := h.size_lt
  rw [u32_of_lt (by omega)]
  obtain ⟨buffer, hload⟩ := loadDirectory_ok hsize
    (show 0 < inode.size + v.blockSize by omega) h.fits
  obtain ⟨hbuffer, -, hbytes⟩ := loadDirectory_some hsize hload
  exact ⟨buffer, hload, hbuffer, hbytes⟩

theorem nameAt_congr
    {s t : ByteStore} {o high : ℕ}
    (h : s.AgreeOn t 0 high) (ho : o + 263 ≤ high) :
    nameAt s o = nameAt t o := by
  have hlength : nameLength s o = nameLength t o := by
    unfold nameLength
    rw [h (o + 6) (Nat.zero_le _) (by omega)]
  have hbound := nameLength_lt t o
  unfold nameAt
  rw [hlength]
  congr 1
  apply List.map_congr_left
  intro k hk
  have hk' := List.mem_range.1 hk
  exact h (o + 8 + k) (Nat.zero_le _) (by omega)

/-- An entry is read alike from two stores that agree up to its end. -/
theorem entry_congr
    {s t : ByteStore} {i o : ℕ}
    (hagree : s.AgreeOn t 0 o)
    (hholds : 8 + nameLength t i ≤ t.le16 (i + 4))
    (hbefore : i + t.le16 (i + 4) ≤ o) :
    s.le32 i = t.le32 i ∧ s.le16 (i + 4) = t.le16 (i + 4) ∧
      nameLength s i = nameLength t i ∧ nameAt s i = nameAt t i := by
  have hlength : nameLength s i = nameLength t i := by
    unfold nameLength
    rw [hagree (i + 6) (Nat.zero_le _) (by omega)]
  refine ⟨hagree.le32_eq i (Nat.zero_le _) (by omega),
    hagree.le16_eq (i + 4) (Nat.zero_le _) (by omega), hlength, ?_⟩
  unfold nameAt
  rw [hlength]
  congr 1
  apply List.map_congr_left
  intro k hk
  have hk' := List.mem_range.1 hk
  exact hagree (i + 8 + k) (Nat.zero_le _) (by omega)

theorem entryChain_congr
    {s t : ByteStore} {size start last high : ℕ} {offsets : List ℕ}
    (h : s.AgreeOn t 0 high) (hsize : size + 8 ≤ high)
    (hchain : EntryChain t size start offsets last) :
    EntryChain s size start offsets last := by
  induction hchain with
  | @stop o hend =>
      rcases Nat.lt_or_ge o size with hlt | hge
      · refine .stop (hend.imp id fun hdead => ?_)
        rwa [h.le32_eq o (Nat.zero_le o) (by omega)]
      · exact .stop (.inl hge)
  | @cons o last rest hinside hlive hstep hrest ih =>
      have hword := h.le32_eq o (Nat.zero_le o) (by omega)
      have hhalf := h.le16_eq (o + 4) (Nat.zero_le _) (by omega)
      refine .cons hinside ?_ ?_ ?_
      · rwa [hword]
      · rwa [hhalf]
      · rwa [hhalf]

/-- The search that `find_dir_entry` and the end of `ext3_delete` share. -/
theorem Directory.walk_eq
    {v : Volume} {inode : Inode} {offsets : List ℕ} {last : ℕ}
    (h : Directory v inode offsets last)
    {buffer : Buffer}
    (hbuffer : buffer.size = inode.size + v.blockSize)
    (hbytes : ∀ k < inode.size + v.blockSize,
      buffer.bytes k = dirBytes v inode k)
    (name : CString) :
    walkDirectory buffer inode.size (hasName buffer name) =
      match offsets.find? (fun o => nameAt (dirBytes v inode) o = name) with
      | some o => .ok (o, true)
      | none => .ok (last, false) := by
  have hlarge := v.blockSize_ge
  have hlt := h.size_lt
  have hagree : buffer.bytes.AgreeOn (dirBytes v inode) 0
      (inode.size + v.blockSize) := fun k _ hk => hbytes k hk
  have hlength := h.chain.length_le
  refine walk_eq_find? (entryChain_congr hagree (by omega) h.chain)
    (fun o ho => ?_) (by omega) (fun o ho => ?_) (by omega)
  · have hinside := (h.chain.mem_bounds ho).2.1
    omega
  have hinside := (h.chain.mem_bounds ho).2.1
  rw [hasName_eq name (by omega), nameAt_congr hagree (by omega)]

theorem findDirEntry_eq
    {v : Volume} {number : ℕ} {inode : Inode} {offsets : List ℕ}
    {last : ℕ}
    (hsize : v.blockSize ≤ 65536)
    (hread : readInode v number = .ok inode)
    (h : Directory v inode offsets last)
    (name : CString) :
    findDirEntry v number name =
      .ok ((offsets.find? (fun o => nameAt (dirBytes v inode) o = name)).map
        (dirBytes v inode).le32) := by
  have hlarge := v.blockSize_ge
  obtain ⟨buffer, hload, hbuffer, hbytes⟩ := h.load hsize
  have hwalk := h.walk_eq hbuffer hbytes name
  unfold findDirEntry
  simp only [hread, hload, hwalk, bind, Except.bind]
  cases hfind : offsets.find?
      (fun o => nameAt (dirBytes v inode) o = name) with
  | none => rfl
  | some o =>
      have ho := List.mem_of_find?_eq_some hfind
      have hinside := (h.chain.mem_bounds ho).2.1
      have hslice : buffer.slice o entrySizeOf =
          .ok (buffer.bytes.drop o) :=
        Buffer.slice_eq_ok.2 ⟨by unfold entrySizeOf; omega, rfl⟩
      have hword : buffer.bytes.le32 o = (dirBytes v inode).le32 o := by
        have hagree : buffer.bytes.AgreeOn (dirBytes v inode) 0
            (inode.size + v.blockSize) := fun k _ hk => hbytes k hk
        exact hagree.le32_eq o (Nat.zero_le o) (by omega)
      simp [hslice, drop_le32, hword, pure, Except.pure]

/-- An entry that a walk meets lies in a block of the directory. -/
theorem dirBytes_block
    {v : Volume} {inode : Inode} {o : ℕ}
    (hinBlock : o % v.blockSize + 4 ≤ v.blockSize)
    (hlive : (dirBytes v inode).le32 o ≠ 0) :
    inode.directBlocks[o / v.blockSize]? =
      some (inode.block (o / v.blockSize)) := by
  have hpos := v.blockSize_pos
  cases hblock : inode.directBlocks[o / v.blockSize]? with
  | some block => rw [(inode.directBlocks_getElem? hblock).1]
  | none =>
      have hzero : ∀ j < 4, dirBytes v inode (o + j) = 0 := by
        intro j hj
        have hsame : (o + j) / v.blockSize = o / v.blockSize := by
          have hsplit := Nat.div_add_mod o v.blockSize
          rw [Nat.div_eq_of_lt_le]
          · rw [Nat.mul_comm]
            omega
          · rw [Nat.succ_mul, Nat.mul_comm]
            omega
        simp only [dirBytes, hsame, hblock]
      exfalso
      apply hlive
      have h0 := hzero 0 (by omega)
      have h1 := hzero 1 (by omega)
      have h2 := hzero 2 (by omega)
      have h3 := hzero 3 (by omega)
      simp only [Nat.add_zero] at h0
      simp [le32, h0, h1, h2, h3]

theorem put32_zero_inside
    (store : ByteStore) {address k : ℕ}
    (hlow : address ≤ k) (hhigh : k < address + 4) :
    store.put32 address 0 k = 0 := by
  rw [put32, blit_inside _ _ hlow hhigh]
  simp [byteOf]

/-- Writing back the block of an entry whose inode has been set to 0 changes
that field only. -/
theorem writeBlock_clearEntry
    {v : Volume} {inode : Inode} {o : ℕ} {buffer : Buffer}
    (hsize : v.blockSize ≤ 65536)
    (hblock : inode.directBlocks[o / v.blockSize]? =
      some (inode.block (o / v.blockSize)))
    (hinBlock : o % v.blockSize + 4 ≤ v.blockSize)
    (hbytes : ∀ k < (o / v.blockSize + 1) * v.blockSize,
      buffer.bytes k = dirBytes v inode k) :
    (writeBlock v (inode.block (o / v.blockSize))
        ((buffer.bytes.put32 o 0).drop
          (o / v.blockSize * v.blockSize))).disk =
      v.disk.put32 (dirAddress v inode o) 0 := by
  have hpos := v.blockSize_pos
  have hsplit := Nat.div_add_mod' o v.blockSize
  rw [writeBlock_disk, v.transfer_eq (by omega)]
  unfold dirAddress
  generalize hbase : v.blockBase (inode.block (o / v.blockSize)) = base
  funext k
  by_cases hk : base ≤ k ∧ k < base + v.blockSize
  · rw [blit_inside _ _ hk.1 hk.2, drop_apply]
    by_cases hfield : base + o % v.blockSize ≤ k ∧
        k < base + o % v.blockSize + 4
    · rw [put32_zero_inside _ (by omega) (by omega),
        put32_zero_inside _ hfield.1 hfield.2]
    · have hplace : o / v.blockSize * v.blockSize + (k - base) <
          (o / v.blockSize + 1) * v.blockSize := by
        rw [Nat.succ_mul]
        omega
      have hdiv : (o / v.blockSize * v.blockSize + (k - base)) /
          v.blockSize = o / v.blockSize := by
        rw [Nat.mul_comm, Nat.mul_add_div hpos,
          Nat.div_eq_of_lt (show k - base < v.blockSize by omega),
          Nat.add_zero]
      have hmod : (o / v.blockSize * v.blockSize + (k - base)) %
          v.blockSize = k - base := by
        rw [Nat.mul_comm, Nat.mul_add_mod,
          Nat.mod_eq_of_lt (show k - base < v.blockSize by omega)]
      rw [put32_outside _ (by omega), put32_outside _ (by omega),
        hbytes _ hplace]
      simp only [dirBytes, hdiv, hmod, hblock]
      rw [hbase, Nat.add_sub_cancel' hk.1]
  · rw [blit_outside _ _ (by omega), put32_outside _ (by omega)]

theorem blockSlot_eq
    {inode : Inode} {j : ℕ} (hj : j < 12) :
    blockSlot inode j = .ok (inode.block j) := by
  have hroom : 40 + 4 * j + 4 ≤ Inode.sizeOf := by
    unfold Inode.sizeOf
    omega
  simp [blockSlot, hroom, pure, Except.pure]

/-- The end of `ext3_delete`: the inode field of the entry is cleared on disk,
or nothing happens. -/
theorem removeEntry_eq
    {v : Volume} {number : ℕ} {inode : Inode} {offsets : List ℕ}
    {last : ℕ}
    (hsize : v.blockSize ≤ 65536)
    (hread : readInode v number = .ok inode)
    (h : Directory v inode offsets last)
    (name : CString) :
    removeEntry v number name = .ok (true,
      match offsets.find? (fun o => nameAt (dirBytes v inode) o = name) with
      | some o =>
          { v with
            disk := v.disk.put32 (dirAddress v inode o) 0 }
      | none => v) := by
  have hlarge := v.blockSize_ge
  have hpos := v.blockSize_pos
  obtain ⟨buffer, hload, hbuffer, hbytes⟩ := h.load hsize
  have hwalk := h.walk_eq hbuffer hbytes name
  unfold removeEntry
  simp only [hread, hload, hwalk, bind, Except.bind]
  cases hfind : offsets.find?
      (fun o => nameAt (dirBytes v inode) o = name) with
  | none => rfl
  | some o =>
      have ho := List.mem_of_find?_eq_some hfind
      obtain ⟨-, hinside, hlive, -, -⟩ := h.chain.mem_bounds ho
      have hinBlock := h.inBlock o ho
      have hblock := dirBytes_block (by omega)
        (show (dirBytes v inode).le32 o ≠ 0 by simpa using hlive)
      have hindex := (inode.directBlocks_getElem? hblock).2.1
      have hsplit := Nat.div_add_mod' o v.blockSize
      have hend : o / v.blockSize * v.blockSize + v.blockSize ≤
          inode.size + v.blockSize := by omega
      have hslice : Buffer.slice
          { buffer with bytes := buffer.bytes.put32 o 0 }
          (o / v.blockSize * v.blockSize) v.transfer =
            .ok ((buffer.bytes.put32 o 0).drop
              (o / v.blockSize * v.blockSize)) := by
        refine Buffer.slice_eq_ok.2 ⟨?_, rfl⟩
        rw [v.transfer_eq (by omega)]
        simp only
        omega
      have hinside : ∀ k < (o / v.blockSize + 1) * v.blockSize,
          buffer.bytes k = dirBytes v inode k := by
        intro k hk
        apply hbytes
        rw [Nat.succ_mul] at hk
        omega
      have hwrite := writeBlock_clearEntry hsize hblock (by omega) hinside
      simp only [if_true, blockSlot_eq hindex, hslice, pure, Except.pure]
      have hvolume : writeBlock v (inode.block (o / v.blockSize))
          ((buffer.bytes.put32 o 0).drop
            (o / v.blockSize * v.blockSize)) =
          { v with
            disk := v.disk.put32 (dirAddress v inode o) 0 } := by
        rw [← hwrite]
        rfl
      rw [hvolume]

end ClOs.Ext3
