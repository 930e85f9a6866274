import ClOs.Ext3Paths
import ClOs.Ext3Walks

/-!
# Listing a directory

`ext3_readdir` keeps its offset from call to call and moves it before it looks
at the name.  The names it returns until `NULL` are those of the entries that a
lookup meets, without `.` and `..`.
-/

namespace ClOs.Ext3

open ByteStore

/-- The calls of `ext3_readdir` up to the first `NULL`, at most `calls`. -/
def readAll : ℕ → Dir → Outcome (List CString)
  | 0, _ => .error .endless
  | calls + 1, dir => do
      match ← ext3Readdir dir with
      | (none, _) => return []
      | (some name, next) => return name :: (← readAll calls next)

/-- `ext3_opendir` followed by these calls. -/
def listNames (calls : ℕ) (v : Volume) (path : CString) :
    Outcome (List CString) := do
  match ← ext3Opendir v path with
  | none => return []
  | some dir => readAll calls dir

def rawName (bytes : ByteStore) (o : ℕ) : List UInt8 :=
  (List.range (nameLength bytes o)).map (bytes.drop (o + 8))

/-- The entries `.` and `..`. -/
def isHidden (bytes : ByteStore) (o : ℕ) : Bool :=
  decide (rawName bytes o ∈ dotNames)

/-- The offset `o` is one that a walk over all entries comes to. -/
def Reaches (bytes : ByteStore) (size o : ℕ) : Prop :=
  Relation.ReflTransGen (fun o next =>
    o < size ∧ decide (bytes.le32 o ≠ 0) = true ∧
      next = o + bytes.le16 (o + 4)) 0 o

/-- The blocks of a directory fit the buffer for its size, whose first word can
be read. -/
structure FitsSize (v : Volume) (inode : Inode) : Prop where
  blocks : inode.directBlocks.length * v.blockSize ≤
    u32 (inode.size + v.blockSize)
  firstWord : u32 (inode.size + v.blockSize) ∉ [1, 2, 3]

/-- Every entry that a walk reaches has a length, and a name without NUL. -/
def SoundRecords (bytes : ByteStore) (size : ℕ) : Prop :=
  ∀ o, Reaches bytes size o → o < size → bytes.le32 o ≠ 0 →
    bytes.le16 (o + 4) ≠ 0 ∧ 0 ∉ rawName bytes o

theorem nameAt_eq (bytes : ByteStore) (o : ℕ) :
    nameAt bytes o = (rawName bytes o).takeWhile (· ≠ 0) := rfl

/-! ## Buffers of any block size -/

theorem loadBlocks_total
    {v : Volume} {blocks : List ℕ} {i : ℕ} {buffer : Buffer}
    (hfits : (i + blocks.length) * v.blockSize ≤ buffer.size) :
    ∃ next, loadBlocks v blocks i buffer = .ok next := by
  induction blocks generalizing i buffer with
  | nil => exact ⟨buffer, rfl⟩
  | cons block rest ih =>
      simp only [List.length_cons] at hfits
      have hroom : i * v.blockSize + v.transfer ≤ buffer.size := by
        have hmoved := v.transfer_le
        have hmul := Nat.mul_le_mul_right v.blockSize
          (show i + 1 ≤ i + (rest.length + 1) by omega)
        rw [Nat.succ_mul] at hmul
        omega
      obtain ⟨next, hnext⟩ := @ih (i + 1)
        { buffer with
          bytes := buffer.bytes.blit (i * v.blockSize)
            (readSectors v.disk (blockToLba v block)) v.transfer }
        (by rwa [show i + 1 + rest.length = i + (rest.length + 1) by omega])
      refine ⟨next, ?_⟩
      unfold loadBlocks
      rw [Buffer.load_eq_ok.2 ⟨hroom, rfl⟩]
      exact hnext

theorem FitsSize.load
    {v : Volume} {inode : Inode} (h : FitsSize v inode)
    (hpos : u32 (inode.size + v.blockSize) ≠ 0) :
    ∃ buffer, loadDirectory v inode (u32 (inode.size + v.blockSize)) =
        .ok (some buffer) ∧
      buffer.size = u32 (inode.size + v.blockSize) := by
  obtain ⟨buffer, hload⟩ := @loadBlocks_total v inode.directBlocks 0
    { size := u32 (inode.size + v.blockSize)
      bytes := v.garbage.blit 0 (fun _ => 0)
        (u32 (inode.size + v.blockSize)) }
    (by simpa using h.blocks)
  refine ⟨buffer, ?_, loadBlocks_size hload⟩
  simp [loadDirectory, kmalloc, hpos, hload, bind, Except.bind, pure,
    Except.pure]

/-- A size that wraps around leaves no room for a block. -/
theorem FitsSize.wrapped
    {v : Volume} {inode : Inode} {buffer : Buffer}
    (h : FitsSize v inode)
    (hload : loadDirectory v inode (u32 (inode.size + v.blockSize)) =
      .ok (some buffer))
    (hhigh : 4294967296 ≤ inode.size + v.blockSize) :
    4 ≤ buffer.size ∧ ∀ k < buffer.size, buffer.bytes k = 0 := by
  have hsize := le32_lt inode 4
  have hblock := v.toGeometry.blockSize_le
  have hwrapped : u32 (inode.size + v.blockSize) < v.blockSize := by
    unfold Inode.size at hhigh ⊢
    unfold u32
    omega
  have hnone : inode.directBlocks = [] := by
    rw [← List.length_eq_zero_iff]
    by_contra hsome
    have hmul := Nat.mul_le_mul_right v.blockSize
      (Nat.one_le_iff_ne_zero.2 hsome)
    have hblocks := h.blocks
    omega
  have hfirst := h.firstWord
  unfold loadDirectory kmalloc at hload
  rw [hnone] at hload
  split_ifs at hload with hzero
  · cases hload
  · cases hload
    simp only [List.mem_cons, List.not_mem_nil, or_false, not_or] at hfirst
    exact ⟨by simp only; omega,
      fun k hk => blit_inside v.garbage (fun _ => 0) (Nat.zero_le k)
        (by simpa using hk)⟩

/-- The entries that a walk meets lie in the buffer with their whole names. -/
theorem FitsSize.room
    {v : Volume} {inode : Inode} {buffer : Buffer} {offsets : List ℕ}
    {last : ℕ}
    (h : FitsSize v inode)
    (hload : loadDirectory v inode (u32 (inode.size + v.blockSize)) =
      .ok (some buffer))
    (hbuffer : buffer.size = u32 (inode.size + v.blockSize))
    (hchain : EntryChain buffer.bytes inode.size 0 offsets last) :
    (∀ o ∈ offsets,
        o + 263 ≤ buffer.size ∧ o + 65536 ≤ 4294967296) ∧
      (last < inode.size → last + 4 ≤ buffer.size) := by
  have hlarge := v.blockSize_ge
  rcases Nat.lt_or_ge (inode.size + v.blockSize) 4294967296 with hlow | hhigh
  · rw [u32_of_lt hlow] at hbuffer
    refine ⟨fun o ho => ?_, by omega⟩
    obtain ⟨-, hinside, hlive, -, -⟩ := hchain.mem_bounds ho
    exact ⟨by omega, loadDirectory_noWrap (u32_lt _) hload o (by omega)
      (by simpa using hlive)⟩
  · obtain ⟨hfour, hzero⟩ := h.wrapped hload hhigh
    have hdead : buffer.bytes.le32 0 = 0 := by
      simp [le32, hzero 0 (by omega), hzero 1 (by omega), hzero 2 (by omega),
        hzero 3 (by omega)]
    cases hchain with
    | stop _ => exact ⟨by simp, fun _ => by omega⟩
    | cons _ hlive _ _ => simp [hdead] at hlive

/-! ## The names that are returned -/

section

variable {buffer : Buffer} {size start last : ℕ} {offsets : List ℕ}

/-- One call of `ext3_readdir`: the first visible entry from the offset on. -/
theorem readEntries_eq
    (hchain : EntryChain buffer.bytes size start offsets last)
    (hroom : ∀ o ∈ offsets,
      o + 263 ≤ buffer.size ∧ o + 65536 ≤ 4294967296)
    (hlast : last < size → last + 4 ≤ buffer.size)
    {fuel : ℕ} (hfuel : offsets.length < fuel) :
    match offsets.dropWhile (isHidden buffer.bytes) with
    | [] => ∃ offset, readEntries buffer size fuel start = .ok (none, offset)
    | o :: _ => readEntries buffer size fuel start =
        .ok (some (nameAt buffer.bytes o),
          o + buffer.bytes.le16 (o + 4)) := by
  induction hchain generalizing fuel with
  | @stop o hend =>
      obtain ⟨fuel, rfl⟩ : ∃ n, fuel = n + 1 := ⟨fuel - 1, by omega⟩
      simp only [List.dropWhile_nil]
      unfold readEntries
      split_ifs with hsize
      · exact ⟨_, rfl⟩
      · have hzero : buffer.bytes.le32 o = 0 := by
          rcases hend with hend | hdead
          · omega
          · simpa using hdead
        rw [Buffer.get32_eq_ok.2 ⟨hlast (by omega), hzero⟩]
        exact ⟨_, rfl⟩
  | @cons o last rest hinside hlive hstep hrest ih =>
      obtain ⟨fuel, rfl⟩ : ∃ n, fuel = n + 1 :=
        ⟨fuel - 1, by simp only [List.length_cons] at hfuel; omega⟩
      obtain ⟨hplace, hbelow⟩ := hroom o (by simp)
      have hget : buffer.get32 o = .ok (buffer.bytes.le32 o) :=
        Buffer.get32_eq_ok.2 ⟨by omega, rfl⟩
      have hne : buffer.bytes.le32 o ≠ 0 := by simpa using hlive
      have hlen : buffer.get16 (o + 4) = .ok (buffer.bytes.le16 (o + 4)) :=
        Buffer.get16_eq_ok.2 ⟨by omega, rfl⟩
      have hbound := buffer.bytes.le16_lt (o + 4)
      have hnext : u32 (o + buffer.bytes.le16 (o + 4)) =
          o + buffer.bytes.le16 (o + 4) := u32_of_lt (by omega)
      have hname : entryBytes buffer o = .ok (rawName buffer.bytes o) :=
        entryBytes_eq hplace
      have hstart : readEntries buffer size (fuel + 1) o =
          if rawName buffer.bytes o ∈ dotNames then
            readEntries buffer size fuel (o + buffer.bytes.le16 (o + 4))
          else .ok (some (nameAt buffer.bytes o),
            o + buffer.bytes.le16 (o + 4)) := by
        rw [readEntries, if_neg (by omega), hget]
        simp only [bind, Except.bind, if_neg hne, hname, hlen, hnext]
        rfl
      rw [hstart]
      by_cases hdots : rawName buffer.bytes o ∈ dotNames
      · have hhidden : isHidden buffer.bytes o = true := by
          simp [isHidden, hdots]
        rw [if_pos hdots, List.dropWhile_cons_of_pos hhidden]
        exact ih (fun o' ho' => hroom o' (by simp [ho'])) hlast
          (by simpa using hfuel)
      · have hshown : ¬isHidden buffer.bytes o = true := by
          simp [isHidden, hdots]
        rw [if_neg hdots, List.dropWhile_cons_of_neg hshown]

theorem filter_dropWhile {α : Type} (hidden : α → Bool) (items : List α) :
    (items.dropWhile hidden).filter (fun item => !hidden item) =
      items.filter (fun item => !hidden item) := by
  induction items with
  | nil => rfl
  | cons item rest ih =>
      cases hitem : hidden item <;> simp [hitem, ih]

theorem readAll_eq
    (dir : Dir) {calls : ℕ}
    (hchain : EntryChain dir.buffer.bytes dir.size start offsets last)
    (hroom : ∀ o ∈ offsets,
      o + 263 ≤ dir.buffer.size ∧ o + 65536 ≤ 4294967296)
    (hlast : last < dir.size → last + 4 ≤ dir.buffer.size)
    (hcalls : offsets.length < calls) :
    readAll calls { dir with currentOffset := start } =
      .ok ((offsets.filter fun o => !isHidden dir.buffer.bytes o).map
        (nameAt dir.buffer.bytes)) := by
  induction calls generalizing start offsets with
  | zero => omega
  | succ calls ih =>
      have hlength := hchain.length_le
      have hcall := readEntries_eq hchain hroom hlast
        (show offsets.length < dir.size + 1 by omega)
      rw [← filter_dropWhile]
      unfold readAll ext3Readdir
      dsimp only
      cases hshown : offsets.dropWhile
          (isHidden dir.buffer.bytes) with
      | nil =>
          rw [hshown] at hcall
          obtain ⟨offset, hnull⟩ := hcall
          rw [hnull]
          rfl
      | cons o back =>
          rw [hshown] at hcall
          simp only at hcall
          obtain ⟨front, hsplit⟩ := List.dropWhile_suffix
            (isHidden dir.buffer.bytes) (l := offsets)
          rw [hshown] at hsplit
          subst hsplit
          have hvisible : isHidden dir.buffer.bytes o = false := by
            have hhead := List.head_dropWhile_not
              (isHidden dir.buffer.bytes) (l := front ++ o :: back)
              (by rw [hshown]; simp)
            simpa [hshown] using hhead
          have hrest := ih hchain.suffix
            (fun o' ho' => hroom o' (by simp [ho']))
            (by
              simp only [List.length_append, List.length_cons] at hcalls
              omega)
          rw [hcall]
          simp only [bind, Except.bind, pure, Except.pure, hrest,
            List.filter_cons, hvisible, Bool.not_false, if_true, List.map_cons]

end

/-! ## What a lookup finds -/

/-- The walk of `find_dir_entry` over the same entries. -/
theorem findDirEntry_eq_find?
    {v : Volume} {inode : Inode} {number : ℕ} {buffer : Buffer}
    {offsets : List ℕ} {last : ℕ}
    (hread : readInode v number = .ok inode)
    (hload : loadDirectory v inode (u32 (inode.size + v.blockSize)) =
      .ok (some buffer))
    (hchain : EntryChain buffer.bytes inode.size 0 offsets last)
    (hroom : ∀ o ∈ offsets,
      o + 263 ≤ buffer.size ∧ o + 65536 ≤ 4294967296)
    (hlast : last < inode.size → last + 4 ≤ buffer.size)
    (name : CString) :
    findDirEntry v number name =
      .ok ((offsets.find? (fun o => nameAt buffer.bytes o = name)).map
        buffer.bytes.le32) := by
  have hlength := hchain.length_le
  have hfuel : offsets.length < inode.size + 1 := by omega
  have hwalk := walk_eq_find? hchain
    (fun o ho => ⟨by have hplace := (hroom o ho).1; omega, (hroom o ho).2⟩)
    hlast (fun o ho => hasName_eq name (hroom o ho).1) hfuel
  unfold findDirEntry walkDirectory
  simp only [hread, hload, hwalk, bind, Except.bind]
  cases hfind : offsets.find? (fun o => nameAt buffer.bytes o = name) with
  | none => rfl
  | some o =>
      have hplace := (hroom o (List.mem_of_find?_eq_some hfind)).1
      have hslice : buffer.slice o entrySizeOf = .ok (buffer.bytes.drop o) :=
        Buffer.slice_eq_ok.2 ⟨hplace, rfl⟩
      simp [hslice, drop_le32, pure, Except.pure]

/-- Without NUL in them the names of a chain are told apart from `.` and `..` by
their C strings. -/
theorem visibleNames_eq
    {bytes : ByteStore} {size last : ℕ} {offsets : List ℕ}
    (hchain : EntryChain bytes size 0 offsets last)
    (hsound : SoundRecords bytes size) :
    (offsets.filter fun o => !isHidden bytes o).map (nameAt bytes) =
      (offsets.map (nameAt bytes)).filter (fun name => name ∉ dotNames) := by
  have hhidden : ∀ o ∈ offsets, (!isHidden bytes o) =
      decide (nameAt bytes o ∉ dotNames) := by
    intro o ho
    obtain ⟨-, hinside, hlive, -, -⟩ := hchain.mem_bounds ho
    have hnul := (hsound o (hchain.reaches ho) hinside
      (by simpa using hlive)).2
    have hraw : nameAt bytes o = rawName bytes o := by
      rw [nameAt_eq]
      refine List.takeWhile_eq_self_iff.2 fun byte hbyte => ?_
      have hne : byte ≠ 0 := fun hzero => hnul (hzero ▸ hbyte)
      simpa using hne
    rw [hraw]
    simp [isHidden]
  rw [List.filter_map, List.filter_congr hhidden]
  rfl

/-- The listing of a directory is `names`: the names of the entries that the
walk of a lookup meets, in order, without `.` and `..`, and these are the names
that a lookup finds. -/
def Lists (v : Volume) (path : CString) (inode : Inode) (number : ℕ)
    (names : List CString) : Prop :=
  (∀ calls, inode.size < calls → listNames calls v path = .ok names) ∧
  (loadDirectory v inode (u32 (inode.size + v.blockSize)) = .ok none →
    names = []) ∧
  (∀ buffer, loadDirectory v inode (u32 (inode.size + v.blockSize)) =
      .ok (some buffer) →
    ∃ offsets last, EntryChain buffer.bytes inode.size 0 offsets last ∧
      names = (offsets.map (nameAt buffer.bytes)).filter
        (fun name => name ∉ dotNames)) ∧
  ∀ name, name ∉ dotNames →
    (name ∈ names ↔ ∃ entry, findDirEntry v number name = .ok (some entry))

theorem ext3Readdir_lists
    (v : Volume) (path : CString) (inode : Inode) (number : ℕ)
    (hfind : findFile v path = .ok (some (inode, number)))
    (hdirectory : inode.isDirectory = true)
    (hfits : FitsSize v inode)
    (hsound : ∀ buffer,
      loadDirectory v inode (u32 (inode.size + v.blockSize)) =
        .ok (some buffer) → SoundRecords buffer.bytes inode.size) :
    ∃ names, Lists v path inode number names := by
  have hread := (findFile_eq_some.1 hfind).2.1
  by_cases hnull : u32 (inode.size + v.blockSize) = 0
  · -- `kmalloc` returns `NULL` to both.
    have hload : loadDirectory v inode (u32 (inode.size + v.blockSize)) =
        .ok none := by
      rw [hnull]
      rfl
    refine ⟨[], fun calls _ => ?_, fun _ => rfl, fun buffer hother => ?_,
      fun name _ => ?_⟩
    · simp [listNames, ext3Opendir, hfind, hdirectory, hload, bind,
        Except.bind, pure, Except.pure]
    · rw [hload] at hother
      cases hother
    · have hnothing : findDirEntry v number name = .ok none := by
        simp [findDirEntry, hread, hload, bind, Except.bind, pure,
          Except.pure]
      simp [hnothing]
  obtain ⟨buffer, hload, hbuffer⟩ := hfits.load hnull
  obtain ⟨offsets, last, hchain⟩ : ∃ offsets last,
      EntryChain buffer.bytes inode.size 0 offsets last :=
    RecordChain.exists_chain fun o hreach hinside hlive =>
      Nat.pos_of_ne_zero
        (hsound buffer hload o hreach hinside (by simpa using hlive)).1
  obtain ⟨hroom, hlast⟩ := hfits.room hload hbuffer hchain
  have hlength := hchain.length_le
  have hnames := visibleNames_eq hchain (hsound buffer hload)
  refine ⟨(offsets.map (nameAt buffer.bytes)).filter
      (fun name => name ∉ dotNames), fun calls hcalls => ?_, fun hother => ?_,
    fun other hother => ?_, fun name hname => ?_⟩
  · rw [← hnames, ← readAll_eq {
        inodeNum := number
        position := 0
        size := inode.size
        buffer := buffer
        inode := inode
        currentOffset := 0 } hchain hroom hlast
      (show offsets.length < calls by omega)]
    simp [listNames, ext3Opendir, hfind, hdirectory, hload, bind, Except.bind,
      pure, Except.pure]
  · rw [hload] at hother
    cases hother
  · rw [hload] at hother
    cases hother
    exact ⟨offsets, last, hchain, rfl⟩
  · rw [findDirEntry_eq_find? hread hload hchain hroom hlast name]
    simp only [List.mem_filter, List.mem_map, hname, not_false_eq_true,
      decide_true, and_true, Except.ok.injEq, Option.map_eq_some_iff]
    constructor
    · rintro ⟨o, ho, hsame⟩
      have hsome : (offsets.find?
          (fun o => nameAt buffer.bytes o = name)).isSome = true :=
        List.find?_isSome.2 ⟨o, ho, by simpa using hsame⟩
      obtain ⟨found, hfound⟩ := Option.isSome_iff_exists.1 hsome
      exact ⟨_, found, hfound, rfl⟩
    · rintro ⟨entry, o, hfound, -⟩
      exact ⟨o, List.mem_of_find?_eq_some hfound,
        by simpa using List.find?_some hfound⟩

theorem soundRecords_of_chain
    {bytes : ByteStore} {size last : ℕ} {offsets : List ℕ}
    (hchain : EntryChain bytes size 0 offsets last)
    (hnames : ∀ o ∈ offsets, 0 ∉ rawName bytes o) :
    SoundRecords bytes size := by
  intro o hreach hinside hlive
  have hmem := hchain.mem_of_reaches hreach hinside (by simpa using hlive)
  have hpos := (hchain.mem_bounds hmem).2.2.2.1
  exact ⟨by omega, hnames o hmem⟩

/-- The files `h` and `l`. -/
theorem ext3Readdir_lists_twoFiles :
    ∃ inode, findFile twoFiles [47] = .ok (some (inode, 2)) ∧
      ∃ names, Lists twoFiles [47] inode 2 names := by
  have hfound : (findFile twoFiles [47]).satisfies (fun found =>
      found.any fun pair => pair.2 = 2 ∧ pair.1.isDirectory = true ∧
        pair.1.size = 1024 ∧ pair.1.directBlocks.length = 1 ∧
        (loadDirectory twoFiles pair.1 2048).satisfies (fun loaded =>
          loaded.any fun buffer : Buffer => decide (
            recordsFrom (fun o => buffer.bytes.le32 o ≠ 0)
                (fun o => buffer.bytes.le16 (o + 4)) 1024 5 0 =
              some ([0, 12, 24, 40], 1024) ∧
            ∀ o ∈ ([0, 12, 24, 40] : List ℕ),
              0 ∉ rawName buffer.bytes o))) = true := by
    decide +kernel
  obtain ⟨⟨inode, number⟩, hfind, htest⟩ :=
    Outcome.exists_some_of_satisfies hfound
  obtain ⟨hnumber, hdirectory, hsize, hblocks, hloaded⟩ :=
    of_decide_eq_true htest
  simp only at hnumber hdirectory hsize hblocks hloaded
  subst hnumber
  have hsum : u32 (inode.size + twoFiles.blockSize) = 2048 := by
    rw [hsize]
    exact u32_of_lt (by decide)
  refine ⟨inode, hfind, ext3Readdir_lists twoFiles [47] inode 2 hfind hdirectory
    ⟨?_, ?_⟩ fun buffer hload => ?_⟩
  · rw [hsum, hblocks]
    decide
  · rw [hsum]
    decide
  · rw [hsum] at hload
    rw [hload] at hloaded
    obtain ⟨hrecords, hnames⟩ := of_decide_eq_true hloaded
    rw [hsize]
    exact soundRecords_of_chain (recordChain_of_recordsFrom 5 hrecords) hnames

end ClOs.Ext3
