import ClOs.Ext3Directories

/-!
# Path resolution on an ext3 volume

`find_file` and `resolve_parent` look names up from the root.  They read the
descriptor table, inodes and directory blocks, and nothing else on disk: two
volumes that agree there resolve every path alike.
-/

namespace ClOs.Ext3

open ByteStore

/-! ## Volumes that differ in their disk -/

def Volume.withDisk (v : Volume) (disk : ByteStore) : Volume :=
  { v with disk := disk }

@[simp] theorem Volume.withDisk_disk (v : Volume) (disk : ByteStore) :
    (v.withDisk disk).disk = disk := rfl

@[simp] theorem Volume.withDisk_toGeometry (v : Volume) (disk : ByteStore) :
    (v.withDisk disk).toGeometry = v.toGeometry := rfl

@[simp] theorem Volume.withDisk_self (v : Volume) :
    v.withDisk v.disk = v := rfl

@[simp] theorem Volume.withDisk_withDisk
    (v : Volume) (disk disk' : ByteStore) :
    (v.withDisk disk).withDisk disk' = v.withDisk disk' := rfl

@[simp] theorem Volume.withDisk_blockBase
    (v : Volume) (disk : ByteStore) (block : ℕ) :
    (v.withDisk disk).blockBase block = v.blockBase block := rfl

/-- Two disks hold the same bytes in a block. -/
def SameBlock (v : Volume) (disk : ByteStore) (block : ℕ) : Prop :=
  ∀ k < v.blockSize,
    disk (v.blockBase block + k) = v.disk (v.blockBase block + k)

theorem fetch_withDisk
    {v : Volume} {disk : ByteStore} {block : ℕ}
    (h : SameBlock v disk block) :
    fetch (v.withDisk disk) block = fetch v block := by
  have hle := v.transfer_le
  unfold fetch
  congr 1
  exact blit_congr _ (fun k hk => h k (by
    have hk' : k < v.transfer := hk
    omega))

theorem inodeToBlock_withDisk
    {v : Volume} {disk : ByteStore}
    (htable : SameBlock v disk 2) (number : ℕ) :
    inodeToBlock (v.withDisk disk) number = inodeToBlock v number := by
  unfold inodeToBlock
  rw [fetch_withDisk htable]
  rfl

theorem readInode_withDisk
    {v : Volume} {disk : ByteStore} {number : ℕ}
    (htable : SameBlock v disk 2)
    (hblock : ∀ block, inodeToBlock v number = .ok block →
      SameBlock v disk block) :
    readInode (v.withDisk disk) number = readInode v number := by
  unfold readInode
  rw [inodeToBlock_withDisk htable]
  cases hnumber : inodeToBlock v number with
  | error halt => rfl
  | ok block =>
      simp only [bind, Except.bind]
      rw [fetch_withDisk (hblock block hnumber)]
      rfl

theorem loadBlocks_withDisk
    {v : Volume} {disk : ByteStore} {blocks : List ℕ}
    (h : ∀ block ∈ blocks, SameBlock v disk block)
    (i : ℕ) (buffer : Buffer) :
    loadBlocks (v.withDisk disk) blocks i buffer =
      loadBlocks v blocks i buffer := by
  have hle := v.transfer_le
  induction blocks generalizing i buffer with
  | nil => rfl
  | cons block rest ih =>
      have hload : ∀ offset,
          buffer.load offset (readSectors disk (blockToLba v block))
              v.transfer =
            buffer.load offset (readSectors v.disk (blockToLba v block))
              v.transfer := by
        intro offset
        have hbytes : buffer.bytes.blit offset
            (readSectors disk (blockToLba v block)) v.transfer =
              buffer.bytes.blit offset
                (readSectors v.disk (blockToLba v block)) v.transfer :=
          blit_congr _ (fun k hk => h block (by simp) k (by omega))
        unfold Buffer.load
        rw [hbytes]
      have hrest := ih (fun b hb => h b (by simp [hb]))
      simp only [loadBlocks]
      have hfirst := hload (i * v.blockSize)
      simp only [Volume.withDisk_disk, Volume.withDisk_toGeometry]
      change (buffer.load (i * v.blockSize)
        (readSectors disk (blockToLba v block)) v.transfer >>= _) = _
      rw [hfirst]
      cases buffer.load (i * v.blockSize)
          (readSectors v.disk (blockToLba v block)) v.transfer with
      | error halt => rfl
      | ok next => exact hrest (i + 1) next

theorem loadDirectory_withDisk
    {v : Volume} {disk : ByteStore} {inode : Inode}
    (h : ∀ block ∈ inode.directBlocks, SameBlock v disk block)
    (size : ℕ) :
    loadDirectory (v.withDisk disk) inode size =
      loadDirectory v inode size := by
  unfold loadDirectory
  cases hbuffer : kmalloc v size with
  | none =>
      have hnone : kmalloc (v.withDisk disk) size = none := hbuffer
      rw [hnone]
  | some buffer =>
      have hsome : kmalloc (v.withDisk disk) size = some buffer := hbuffer
      rw [hsome]
      simp only [loadBlocks_withDisk h]

theorem findDirEntry_withDisk
    {v : Volume} {disk : ByteStore} {number : ℕ}
    (hread : readInode (v.withDisk disk) number = readInode v number)
    (hblocks : ∀ inode, readInode v number = .ok inode →
      ∀ block ∈ inode.directBlocks, SameBlock v disk block)
    (name : CString) :
    findDirEntry (v.withDisk disk) number name =
      findDirEntry v number name := by
  unfold findDirEntry
  rw [hread]
  cases hinode : readInode v number with
  | error halt => rfl
  | ok inode =>
      simp only [bind, Except.bind,
        loadDirectory_withDisk (hblocks inode hinode),
        Volume.withDisk_toGeometry]

theorem enterDirectory_withDisk
    {v : Volume} {disk : ByteStore} {number : ℕ}
    (hread : readInode (v.withDisk disk) number = readInode v number) :
    enterDirectory (v.withDisk disk) number = enterDirectory v number := by
  unfold enterDirectory
  rw [hread]

theorem enterDirectory_eq_some
    {v : Volume} {number child : ℕ} :
    enterDirectory v number = .ok (some child) ↔
      child = number ∧
        ∃ inode, readInode v number = .ok inode ∧
          inode.isDirectory = true := by
  unfold enterDirectory
  cases hread : readInode v number with
  | error halt => simp [bind, Except.bind]
  | ok inode =>
      cases hdirectory : inode.isDirectory with
      | true =>
          simp only [hdirectory, if_true, bind, Except.bind, pure,
            Except.pure, Except.ok.injEq, Option.some.injEq,
            exists_eq_left', and_true]
          exact eq_comm
      | false =>
          simp [hdirectory, bind, Except.bind, pure, Except.pure]

/-! ## The walk of a path -/

/-- The lookups of `find_file` on a path, as pairs of a directory and a
name. -/
def trace (v : Volume) (path : CString) : List (ℕ × CString) :=
  lookups (findDirEntry v) (enterDirectory v) rootInode (components path)

/-- The directory that the last name of a path is looked up in, and the inode
number found. -/
def resolve (v : Volume) (path : CString) : Outcome (Option (ℕ × ℕ)) :=
  walkNames (findDirEntry v) (enterDirectory v) rootInode (components path)

theorem findFile_root
    {v : Volume} {path : CString}
    (hlength : (dropSlash path).length < 256)
    (hnames : components path = []) :
    findFile v path = (do return some (← readInode v rootInode, rootInode)) := by
  have hcopy := copyPath_eq_ok.2 ⟨hlength, rfl⟩
  have hempty : stripSlashes (dropSlash path) = [] := by
    rw [← components_eq_nil_iff, components_dropSlash, hnames]
  simp [findFile, hcopy, hempty, bind, Except.bind]

theorem findFile_names
    {v : Volume} {path : CString}
    (hlength : (dropSlash path).length < 256)
    (hnames : components path ≠ []) :
    findFile v path = (do
      match ← resolve v path with
      | none => return none
      | some (_, number) => return some (← readInode v number, number)) := by
  have hcopy := copyPath_eq_ok.2 ⟨hlength, rfl⟩
  have hne : stripSlashes (dropSlash path) ≠ [] := by
    rwa [ne_eq, ← components_eq_nil_iff, components_dropSlash]
  have htokens := findTokens_splitOn (findDirEntry v) (enterDirectory v)
    rootInode hne (getLast?_stripSlashes (dropSlash path))
  rw [components_stripSlashes, components_dropSlash] at htokens
  unfold findFile resolve
  simp only [hcopy, hne, if_false, bind, Except.bind]
  generalize findTokens (findDirEntry v) (enterDirectory v) rootInode
    (List.splitOn slash (stripSlashes (dropSlash path))) = found at htokens ⊢
  subst htokens
  rfl

theorem findFile_length
    {v : Volume} {path : CString} {result : Option (Inode × ℕ)}
    (hfind : findFile v path = .ok result) :
    (dropSlash path).length < 256 := by
  unfold findFile at hfind
  rw [Outcome.bind_eq_ok] at hfind
  obtain ⟨copy, hcopy, -⟩ := hfind
  exact (copyPath_eq_ok.1 hcopy).1

theorem findFile_eq_some
    {v : Volume} {path : CString} {inode : Inode} {number : ℕ} :
    findFile v path = .ok (some (inode, number)) ↔
      (dropSlash path).length < 256 ∧ readInode v number = .ok inode ∧
        ((components path = [] ∧ number = rootInode) ∨
          ∃ d, resolve v path = .ok (some (d, number))) := by
  constructor
  · intro hfind
    have hlength := findFile_length hfind
    refine ⟨hlength, ?_⟩
    by_cases hnames : components path = []
    · rw [findFile_root hlength hnames, Outcome.bind_eq_ok] at hfind
      obtain ⟨root, hread, hfind⟩ := hfind
      simp only [pure, Except.pure, Except.ok.injEq, Option.some.injEq,
        Prod.mk.injEq] at hfind
      obtain ⟨rfl, rfl⟩ := hfind
      exact ⟨hread, .inl ⟨hnames, rfl⟩⟩
    · rw [findFile_names hlength hnames, Outcome.bind_eq_ok] at hfind
      obtain ⟨found, hwalk, hfind⟩ := hfind
      cases found with
      | none => simp [pure, Except.pure] at hfind
      | some pair =>
          simp only at hfind
          rw [Outcome.bind_eq_ok] at hfind
          obtain ⟨record, hread, hfind⟩ := hfind
          simp only [pure, Except.pure, Except.ok.injEq, Option.some.injEq,
            Prod.mk.injEq] at hfind
          obtain ⟨rfl, rfl⟩ := hfind
          exact ⟨hread, .inr ⟨pair.1, hwalk⟩⟩
  · rintro ⟨hlength, hread, ⟨hnames, rfl⟩ | ⟨d, hwalk⟩⟩
    · rw [findFile_root hlength hnames, hread]
      rfl
    · have hnames : components path ≠ [] := by
        intro hnone
        simp [resolve, hnone, walkNames] at hwalk
      rw [findFile_names hlength hnames, hwalk]
      simp only [bind, Except.bind, hread]
      rfl

theorem findFile_eq_none
    {v : Volume} {path : CString}
    (hlength : (dropSlash path).length < 256)
    (hnames : components path ≠ [])
    (hwalk : resolve v path = .ok none) :
    findFile v path = .ok none := by
  rw [findFile_names hlength hnames, hwalk]
  rfl

/-- Inode 2 is a directory. -/
def RootIsDirectory (v : Volume) : Prop :=
  ∃ inode, readInode v rootInode = .ok inode ∧ inode.isDirectory = true

theorem resolveParent_length
    {v : Volume} {path name : CString} {parent : ℕ}
    (hparent : resolveParent v path = .ok (parent, name)) :
    (dropSlash path).length < 256 := by
  unfold resolveParent at hparent
  rw [Outcome.bind_eq_ok] at hparent
  obtain ⟨copy, hcopy, -⟩ := hparent
  exact (copyPath_eq_ok.1 hcopy).1

/-- `resolve_parent` gives the file name of the path, and 0 or a directory
that a path leads to. -/
theorem resolveParent_cases
    {v : Volume} {path name : CString} {parent : ℕ}
    (hparent : resolveParent v path = .ok (parent, name)) :
    name = fileName path ∧
      (parent = 0 ∨ parent = rootInode ∨
        ∃ dirname inode, findFile v dirname = .ok (some (inode, parent)) ∧
          inode.isDirectory = true) := by
  unfold resolveParent at hparent
  rw [Outcome.bind_eq_ok] at hparent
  obtain ⟨copy, hcopy, hparent⟩ := hparent
  obtain ⟨-, rfl⟩ := copyPath_eq_ok.1 hcopy
  unfold fileName
  simp only at hparent
  cases hcut : lastSlash (stripSlash (dropSlash path)) with
  | none =>
      simp only [hcut, pure, Except.pure, Except.ok.injEq,
        Prod.mk.injEq] at hparent
      simp only [hcut]
      exact ⟨hparent.2.symm, .inr (.inl hparent.1.symm)⟩
  | some i =>
      simp only [hcut] at hparent
      rw [Outcome.bind_eq_ok] at hparent
      obtain ⟨found, hdir, hparent⟩ := hparent
      simp only [hcut]
      cases found with
      | none =>
          simp only [pure, Except.pure, Except.ok.injEq,
            Prod.mk.injEq] at hparent
          exact ⟨hparent.2.symm, .inl hparent.1.symm⟩
      | some pair =>
          obtain ⟨inode, number⟩ := pair
          simp only [pure, Except.pure, Except.ok.injEq,
            Prod.mk.injEq] at hparent
          refine ⟨hparent.2.symm, ?_⟩
          cases hdirectory : inode.isDirectory with
          | true =>
              simp only [hdirectory, if_true] at hparent
              obtain ⟨rfl, -⟩ := hparent
              exact .inr (.inr ⟨_, inode, hdir, hdirectory⟩)
          | false =>
              simp only [hdirectory, Bool.false_eq_true,
                if_false] at hparent
              exact .inl hparent.1.symm

/-- `resolve_parent` on a path with a file name gives the directory in which
`find_file` looks it up. -/
theorem resolveParent_of_resolve
    {v : Volume} {path : CString} {d number : ℕ}
    (hroot : RootIsDirectory v)
    (hlength : (dropSlash path).length < 256)
    (hwalk : resolve v path = .ok (some (d, number)))
    (hname : fileName path ≠ []) :
    resolveParent v path = .ok (d, fileName path) ∧
      findDirEntry v d (fileName path) = .ok (some number) := by
  have hcopy := copyPath_eq_ok.2 ⟨hlength, rfl⟩
  unfold resolve at hwalk
  unfold resolveParent
  simp only [hcopy, bind, Except.bind]
  rcases components_fileName hname with
    ⟨hcut, hnames⟩ | ⟨i, hcut, hfile, hnames⟩
  · rw [hnames, walkNames_singleton_eq_some] at hwalk
    obtain ⟨hplace, hfound⟩ := hwalk
    simp only at hplace hfound
    subst hplace
    have hstripped : fileName path = stripSlash (dropSlash path) := by
      simp [fileName, hcut]
    rw [hcut, ← hstripped]
    exact ⟨rfl, hfound⟩
  · have hshort := (length_parent_le path i).trans_lt hlength
    rw [hnames] at hwalk
    rw [hcut]
    simp only [← hfile]
    by_cases hempty : components ((stripSlash (dropSlash path)).take i) = []
    · rw [hempty, List.nil_append, walkNames_singleton_eq_some] at hwalk
      obtain ⟨hplace, hfound⟩ := hwalk
      simp only at hplace hfound
      subst hplace
      obtain ⟨inode, hread, hdirectory⟩ := hroot
      refine ⟨?_, hfound⟩
      rw [findFile_eq_some.2 ⟨hshort, hread, .inl ⟨hempty, rfl⟩⟩]
      simp only [hdirectory, if_true, pure, Except.pure]
    · rw [walkNames_concat _ _ _ _ hempty, Outcome.bind_eq_ok] at hwalk
      obtain ⟨reached, hreached, hwalk⟩ := hwalk
      cases reached with
      | none => simp at hwalk
      | some pair =>
          simp only at hwalk
          rw [Outcome.bind_eq_ok] at hwalk
          obtain ⟨entered, henter, hwalk⟩ := hwalk
          cases entered with
          | none => simp at hwalk
          | some child =>
              obtain ⟨hplace, hfound⟩ := walkNames_singleton_eq_some.1 hwalk
              obtain ⟨hchild, inode, hread, hdirectory⟩ :=
                enterDirectory_eq_some.1 henter
              simp only at hplace hfound
              subst hplace hchild
              refine ⟨?_, hfound⟩
              rw [findFile_eq_some.2
                ⟨hshort, hread, .inr ⟨pair.1, hreached⟩⟩]
              simp only [hdirectory, if_true, pure, Except.pure]

theorem resolveParent_named
    {v : Volume} {path name : CString} {parent d number : ℕ}
    (hroot : RootIsDirectory v)
    (hparent : resolveParent v path = .ok (parent, name))
    (hwalk : resolve v path = .ok (some (d, number)))
    (hname : name ≠ []) :
    parent = d ∧ (trace v path).getLast? = some (d, name) ∧
      findDirEntry v d name = .ok (some number) := by
  have hfile := (resolveParent_cases hparent).1
  subst hfile
  obtain ⟨front, last, hnames, hlast, -⟩ := getLast?_lookups hwalk
  obtain ⟨hsame, hfound⟩ := resolveParent_of_resolve hroot
    (resolveParent_length hparent) hwalk hname
  rw [hparent] at hsame
  simp only [Except.ok.injEq, Prod.mk.injEq, and_true] at hsame
  have hlastname := getLast?_components hname
  rw [hnames, List.getLast?_concat, Option.some.injEq] at hlastname
  rw [hlastname] at hlast
  exact ⟨hsame, hlast, hfound⟩

/-! ## What path resolution reads -/

/-- The directories that `find_file` can come to. -/
inductive Reach (v : Volume) : ℕ → Prop
  | root : Reach v rootInode
  | entry {d n : ℕ} {name : CString}
      (hparent : Reach v d)
      (hfound : findDirEntry v d name = .ok (some n))
      (hdirectory : enterDirectory v n = .ok (some n)) : Reach v n

/-- The inode numbers that an entry of such a directory carries. -/
def Named (v : Volume) (n : ℕ) : Prop :=
  n = rootInode ∨
    ∃ d name, Reach v d ∧ findDirEntry v d name = .ok (some n)

/-- Address `k` lies in a block. -/
def InBlock (v : Volume) (block k : ℕ) : Prop :=
  v.blockBase block ≤ k ∧ k < v.blockBase block + v.blockSize

/-- Address `k` lies in a directory. -/
def InDirectory (v : Volume) (d k : ℕ) : Prop :=
  ∃ inode block, readInode v d = .ok inode ∧
    block ∈ inode.directBlocks ∧ InBlock v block k

/-- The addresses that path resolution reads: the descriptor table, the inodes
of named entries and the directories. -/
inductive PathByte (v : Volume) (k : ℕ) : Prop
  | table (h : InBlock v 2 k)
  | inode (n block : ℕ) (hnamed : Named v n)
      (hblock : inodeToBlock v n = .ok block) (h : InBlock v block k)
  | directory (d : ℕ) (hreach : Reach v d) (h : InDirectory v d k)

def SamePaths (v : Volume) (disk : ByteStore) : Prop :=
  ∀ k, PathByte v k → disk k = v.disk k

theorem Reach.named {v : Volume} {d : ℕ} (h : Reach v d) : Named v d := by
  cases h with
  | root => exact .inl rfl
  | entry hparent hfound hdirectory => exact .inr ⟨_, _, hparent, hfound⟩

theorem Reach.step {v : Volume} {d n child : ℕ} {name : CString}
    (h : Reach v d) (hfound : findDirEntry v d name = .ok (some n))
    (henter : enterDirectory v n = .ok (some child)) : Reach v child := by
  obtain ⟨rfl, -⟩ := enterDirectory_eq_some.1 henter
  exact .entry h hfound henter

theorem mem_trace_reach {v : Volume} {path : CString} {t : ℕ × CString}
    (ht : t ∈ trace v path) : Reach v t.1 :=
  lookups_induction (motive := Reach v) .root
    (fun _ _ _ _ hplace hfound henter => hplace.step hfound henter) t ht

theorem resolve_reach {v : Volume} {path : CString} {d n : ℕ}
    (hwalk : resolve v path = .ok (some (d, n))) :
    Reach v d ∧ ∃ name, findDirEntry v d name = .ok (some n) := by
  obtain ⟨front, name, -, hlast, hfound⟩ := getLast?_lookups hwalk
  exact ⟨mem_trace_reach (List.mem_of_getLast? hlast), name, hfound⟩

theorem findFile_named {v : Volume} {path : CString} {inode : Inode} {n : ℕ}
    (hfind : findFile v path = .ok (some (inode, n))) : Named v n := by
  obtain ⟨-, -, ⟨-, rfl⟩ | ⟨d, hwalk⟩⟩ := findFile_eq_some.1 hfind
  · exact .inl rfl
  · obtain ⟨hreach, name, hfound⟩ := resolve_reach hwalk
    exact .inr ⟨d, name, hreach, hfound⟩

theorem findFile_reach {v : Volume} {path : CString} {inode : Inode} {n : ℕ}
    (hfind : findFile v path = .ok (some (inode, n)))
    (hdirectory : inode.isDirectory = true) : Reach v n := by
  obtain ⟨-, hread, ⟨-, rfl⟩ | ⟨d, hwalk⟩⟩ := findFile_eq_some.1 hfind
  · exact .root
  · obtain ⟨hreach, name, hfound⟩ := resolve_reach hwalk
    exact .entry hreach hfound
      (enterDirectory_eq_some.2 ⟨rfl, inode, hread, hdirectory⟩)

theorem resolveParent_reach
    {v : Volume} {path name : CString} {parent : ℕ}
    (hparent : resolveParent v path = .ok (parent, name))
    (hzero : parent ≠ 0) : Reach v parent := by
  rcases (resolveParent_cases hparent).2 with h | rfl |
    ⟨dirname, inode, hfind, hdirectory⟩
  · exact absurd h hzero
  · exact .root
  · exact findFile_reach hfind hdirectory

section

variable {v : Volume} {disk : ByteStore}

theorem SamePaths.table (h : SamePaths v disk) : SameBlock v disk 2 :=
  fun k hk => h _ (.table ⟨Nat.le_add_right _ _, by omega⟩)

theorem SamePaths.readInode (h : SamePaths v disk) {n : ℕ}
    (hnamed : Named v n) :
    readInode (v.withDisk disk) n = Ext3.readInode v n :=
  readInode_withDisk h.table (fun block hblock k hk =>
    h _ (.inode n block hnamed hblock ⟨Nat.le_add_right _ _, by omega⟩))

theorem SamePaths.directBlocks (h : SamePaths v disk) {d : ℕ} {inode : Inode}
    (hreach : Reach v d) (hread : Ext3.readInode v d = .ok inode) :
    ∀ block ∈ inode.directBlocks, SameBlock v disk block :=
  fun block hblock k hk => h _ (.directory d hreach
    ⟨inode, block, hread, hblock, Nat.le_add_right _ _, by omega⟩)

theorem SamePaths.findDirEntry (h : SamePaths v disk) {d : ℕ}
    (hreach : Reach v d) (name : CString) :
    findDirEntry (v.withDisk disk) d name = Ext3.findDirEntry v d name :=
  findDirEntry_withDisk (h.readInode hreach.named)
    (fun _ hread => h.directBlocks hreach hread) name

theorem SamePaths.enterDirectory (h : SamePaths v disk) {n : ℕ}
    (hnamed : Named v n) :
    enterDirectory (v.withDisk disk) n = Ext3.enterDirectory v n :=
  enterDirectory_withDisk (h.readInode hnamed)

theorem SamePaths.resolve (h : SamePaths v disk) (path : CString) :
    resolve (v.withDisk disk) path = Ext3.resolve v path :=
  walkNames_congr
    (fun t ht => h.findDirEntry (mem_trace_reach ht) t.2)
    (fun t ht _ hfound =>
      h.enterDirectory (.inr ⟨t.1, t.2, mem_trace_reach ht, hfound⟩))

theorem findFile_long {w : Volume} {path : CString}
    (hlength : ¬(dropSlash path).length < 256) :
    findFile w path = .error .outOfBounds := by
  simp [Ext3.findFile, copyPath, hlength, bind, Except.bind]

theorem SamePaths.findFile (h : SamePaths v disk) (path : CString) :
    findFile (v.withDisk disk) path = Ext3.findFile v path := by
  by_cases hlength : (dropSlash path).length < 256
  · by_cases hnames : components path = []
    · rw [findFile_root hlength hnames, findFile_root hlength hnames,
        h.readInode (.inl rfl)]
    · rw [findFile_names hlength hnames, findFile_names hlength hnames,
        h.resolve]
      cases hwalk : Ext3.resolve v path with
      | error halt => simp only [bind, Except.bind]
      | ok found =>
          cases found with
          | none => simp only [bind, Except.bind]
          | some pair =>
              obtain ⟨d, n⟩ := pair
              obtain ⟨hreach, name, hfound⟩ := resolve_reach hwalk
              simp only [bind, Except.bind,
                h.readInode (.inr ⟨d, name, hreach, hfound⟩)]
  · rw [findFile_long hlength, findFile_long hlength]

theorem SamePaths.resolveParent (h : SamePaths v disk) (path : CString) :
    resolveParent (v.withDisk disk) path = Ext3.resolveParent v path := by
  unfold Ext3.resolveParent
  simp only [h.findFile]

end

end ClOs.Ext3
