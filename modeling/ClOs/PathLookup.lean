import ClOs.Ext3Removal
import ClOs.Fat32Paths

/-!
# Path lookup in both drivers

`find_file` of either driver depends on the components of a path alone, while
the other parser of each driver, which splits off the file name, also sees a
second slash at the end.
-/

namespace ClOs

namespace Ext3

/-- What a list of names stands for: the root if there is none, and otherwise
the inode found by looking one up after another. -/
def lookupPath (v : Volume) (names : List CString) :
    Outcome (Option (Inode × ℕ)) :=
  if names = [] then do
    return some (← readInode v rootInode, rootInode)
  else do
    match ← walkNames (findDirEntry v) (enterDirectory v) rootInode names with
    | none => return none
    | some (_, number) => return some (← readInode v number, number)

theorem findFile_eq_lookupPath
    {v : Volume} {path : CString}
    (hlength : (dropSlash path).length < 256) :
    findFile v path = lookupPath v (components path) := by
  unfold lookupPath
  split_ifs with hnames
  · exact findFile_root hlength hnames
  · exact findFile_names hlength hnames

/-- `resolve_parent` gives directory `d` and a name under which `d` has inode
`number`. -/
def ParentAgrees (v : Volume) (path : CString) (d number : ℕ) : Prop :=
  ∃ name, resolveParent v path = .ok (d, name) ∧
    findDirEntry v d name = .ok (some number)

/-- No entry of a directory has an empty name. -/
def NoEmptyName (v : Volume) (d : ℕ) : Prop :=
  ∀ number, findDirEntry v d [] ≠ .ok (some number)

theorem parentAgrees_of_name
    {v : Volume} {path : CString} {d number : ℕ} {inode : Inode}
    (hroot : RootIsDirectory v)
    (hfind : findFile v path = .ok (some (inode, number)))
    (hwalk : resolve v path = .ok (some (d, number)))
    (hname : fileName path ≠ []) :
    ParentAgrees v path d number :=
  ⟨fileName path,
    resolveParent_of_resolve hroot (findFile_length hfind) hwalk hname⟩

theorem ParentAgrees.name_ne
    {v : Volume} {path : CString} {d number : ℕ}
    (hagree : ParentAgrees v path d number)
    (hempty : NoEmptyName v d) :
    fileName path ≠ [] := by
  intro hname
  obtain ⟨name, hparent, hfound⟩ := hagree
  rw [(resolveParent_cases hparent).1, hname] at hfound
  exact hempty number hfound

end Ext3

namespace Fat32

/-- `resolve_parent_directory` gives the directory at a cluster and a name under
which that directory has an entry. -/
def ParentAgrees (v : Volume) (path : CString) (cluster : ℕ) (entry : Entry) :
    Prop :=
  ∃ name, resolveParentDirectory v path = .ok (cluster, name) ∧
    findToken v cluster name = .ok (some entry)

/-- No entry of a directory has a blank name. -/
def NoEmptyName (v : Volume) (cluster : ℕ) : Prop :=
  ∀ entry, findToken v cluster [] ≠ .ok (some entry)

theorem parentAgrees_of_name
    {v : Volume} {path : CString} {cluster : ℕ} {entry : Entry}
    (hfind : findFile v path = .ok (some (entry, cluster)))
    (hname : fileName path ≠ []) :
    ParentAgrees v path cluster entry :=
  ⟨fileName path, resolveParentDirectory_named hfind hname⟩

theorem ParentAgrees.name_ne
    {v : Volume} {path : CString} {cluster : ℕ} {entry : Entry}
    (hagree : ParentAgrees v path cluster entry)
    (hempty : NoEmptyName v cluster) :
    fileName path ≠ [] := by
  intro hname
  obtain ⟨name, hparent, hfound⟩ := hagree
  rw [resolveParentDirectory_name hparent, hname] at hfound
  exact hempty entry hfound

end Fat32

/-! ## Lookup -/

/-- In both drivers `find_file` folds the lookup in one directory over the
components of the path, and so it depends on nothing else of the path. -/
theorem pathLookup_eq_fold {path : CString} (hlength : path.length < 256) :
    (∀ v : Ext3.Volume,
        Ext3.findFile v path = Ext3.lookupPath v (components path)) ∧
      (∀ v : Fat32.Volume,
        Fat32.findFile v path = Fat32.lookupPath v (components path)) ∧
      ∀ other : CString, other.length < 256 →
        components other = components path →
        (∀ v : Ext3.Volume, Ext3.findFile v other = Ext3.findFile v path) ∧
          ∀ v : Fat32.Volume,
            Fat32.findFile v other = Fat32.findFile v path := by
  have hext3 : ∀ p : CString, p.length < 256 → ∀ v : Ext3.Volume,
      Ext3.findFile v p = Ext3.lookupPath v (components p) :=
    fun p hp _ => Ext3.findFile_eq_lookupPath
      ((length_dropSlash_le p).trans_lt hp)
  have hfat32 : ∀ p : CString, p.length < 256 → ∀ v : Fat32.Volume,
      Fat32.findFile v p = Fat32.lookupPath v (components p) :=
    fun p hp _ => Fat32.findFile_eq_lookupPath
      ((length_dropSlash_le p).trans_lt hp)
  refine ⟨hext3 path hlength, hfat32 path hlength, ?_⟩
  intro other hother hsame
  constructor
  · intro v
    rw [hext3 other hother, hext3 path hlength, hsame]
  · intro v
    rw [hfat32 other hother, hfat32 path hlength, hsame]

/-- `//a/` is the root directory's `a`. -/
theorem pathLookup_eq_fold_slashes :
    (∀ v : Ext3.Volume,
        Ext3.findFile v [47, 47, 97, 47] = Ext3.lookupPath v [[97]]) ∧
      ∀ v : Fat32.Volume,
        Fat32.findFile v [47, 47, 97, 47] = Fat32.lookupPath v [[97]] := by
  have hnames : components [47, 47, 97, 47] = [[97]] := by decide
  have hlength : ([47, 47, 97, 47] : CString).length < 256 := by decide
  have hfold := pathLookup_eq_fold hlength
  rw [hnames] at hfold
  exact ⟨hfold.1, hfold.2.1⟩

/-! ## The parent directory -/

/-- The parent directory and the file name that `resolve_parent` and
`resolve_parent_directory` give belong to the entry that `find_file` finds, if
the path does not end in two slashes, and otherwise they do not. -/
theorem parentAgrees_iff {path : CString} (hnames : components path ≠ []) :
    (∀ (v : Ext3.Volume) (inode : Ext3.Inode) (d number : ℕ),
      Ext3.RootIsDirectory v →
      Ext3.findFile v path = .ok (some (inode, number)) →
      Ext3.resolve v path = .ok (some (d, number)) →
      (¬[slash, slash] <:+ path → Ext3.ParentAgrees v path d number) ∧
        (Ext3.NoEmptyName v d →
          (Ext3.ParentAgrees v path d number ↔ ¬[slash, slash] <:+ path))) ∧
    ∀ (v : Fat32.Volume) (entry : Fat32.Entry) (cluster : ℕ),
      Fat32.findFile v path = .ok (some (entry, cluster)) →
      (¬[slash, slash] <:+ path → Fat32.ParentAgrees v path cluster entry) ∧
        (Fat32.NoEmptyName v cluster →
          (Fat32.ParentAgrees v path cluster entry ↔
            ¬[slash, slash] <:+ path)) := by
  have hname : ¬[slash, slash] <:+ path ↔ fileName path ≠ [] :=
    not_congr (fileName_eq_nil_iff hnames).symm
  rw [hname]
  constructor
  · intro v inode d number hroot hfind hwalk
    have hagree := Ext3.parentAgrees_of_name hroot hfind hwalk
    exact ⟨hagree, fun hempty => ⟨fun h => h.name_ne hempty, hagree⟩⟩
  · intro v entry cluster hfind
    have hagree := Fat32.parentAgrees_of_name hfind
    exact ⟨hagree, fun hempty => ⟨fun h => h.name_ne hempty, hagree⟩⟩

/-- A volume whose root directory holds the empty directory `d`. -/
def Ext3.emptyDirectory : Ext3.Volume where
  toGeometry := smallGeometry
  disk := ByteStore.ofWords [
    (2048, 3), (2052, 4), (2056, 5), (2060, 0x00031FF7),
    (3072, 0x1FF), (4096, 0x1FFF),
    (5248, 0x41ED), (5252, 1024), (5288, 7),
    (6528, 0x41ED), (6532, 1024), (6568, 8),
    (7168, 2), (7172, 0x0201000C), (7176, 0x2E),
    (7180, 2), (7184, 0x0202000C), (7188, 0x2E2E),
    (7192, 12), (7196, 0x020103E8), (7200, 0x64),
    (8192, 12), (8196, 0x0201000C), (8200, 0x2E),
    (8204, 2), (8208, 0x020203F4), (8212, 0x2E2E)]
  garbage := fun _ => 0

/-- The same directory on a volume of 14 clusters of one sector. -/
def Fat32.emptyDirectory : Fat32.Volume :=
  initFat32 (ByteStore.ofWords [
    (12, 0x00010102), (16, 0x10000001), (36, 1), (44, 2),
    (520, 0x0FFFFFFF), (524, 0x0FFFFFFF),
    (1024, 0x20202044), (1028, 0x20202020), (1032, 0x10202020),
    (1048, 0x00030000),
    (1536, 0x2020202E), (1540, 0x20202020), (1544, 0x10202020),
    (1560, 0x00030000),
    (1568, 0x20202E2E), (1572, 0x20202020), (1576, 0x10202020)])
    (fun _ => 0)

/-- `/d` is found and split alike by both drivers. -/
theorem parentAgrees_iff_directory :
    Ext3.ParentAgrees Ext3.emptyDirectory [47, 100] 2 12 ∧
      ∃ entry, Fat32.ParentAgrees Fat32.emptyDirectory [47, 100] 2 entry := by
  have hsome : components [47, 100] ≠ [] := by decide
  have hagree := parentAgrees_iff hsome
  have hends : ¬[slash, slash] <:+ [47, 100] := by decide
  constructor
  · have hroot : (Ext3.readInode Ext3.emptyDirectory
        Ext3.rootInode).satisfies (fun inode => inode.isDirectory) = true := by
      decide +kernel
    have hfound : (Ext3.findFile Ext3.emptyDirectory [47, 100]).satisfies
        (fun found => found.any (fun pair => pair.2 = 12)) = true := by
      decide +kernel
    have hwalk : (Ext3.resolve Ext3.emptyDirectory [47, 100]).satisfies
        (fun found => found = some (2, 12)) = true := by
      decide +kernel
    obtain ⟨⟨inode, number⟩, hfind, htwelve⟩ :=
      Outcome.exists_some_of_satisfies hfound
    obtain ⟨place, hresolve, hplace⟩ := Outcome.exists_of_satisfies hwalk
    rw [of_decide_eq_true hplace] at hresolve
    obtain rfl : number = 12 := of_decide_eq_true htwelve
    exact (hagree.1 Ext3.emptyDirectory inode 2 12
      (Outcome.exists_of_satisfies hroot) hfind hresolve).1 hends
  · have hfound : (Fat32.findFile Fat32.emptyDirectory [47, 100]).satisfies
        (fun found => found.any (fun pair => pair.2 = 2)) = true := by
      decide +kernel
    obtain ⟨⟨entry, cluster⟩, hfind, htwo⟩ :=
      Outcome.exists_some_of_satisfies hfound
    obtain rfl : cluster = 2 := of_decide_eq_true htwo
    exact ⟨entry, (hagree.2 Fat32.emptyDirectory entry 2 hfind).1 hends⟩

/-- `/d//` is found as well, but the other parser looks for an empty name in
`d`: the blocks of `d` are freed and its entry stays. -/
theorem parentResolution_doubleSlash :
    (∃ inode, Ext3.RootIsDirectory Ext3.emptyDirectory ∧
      Ext3.findFile Ext3.emptyDirectory [47, 100, 47, 47] =
        .ok (some (inode, 12)) ∧
      Ext3.resolve Ext3.emptyDirectory [47, 100, 47, 47] =
        .ok (some (2, 12)) ∧
      ¬Ext3.ParentAgrees Ext3.emptyDirectory [47, 100, 47, 47] 2 12 ∧
      ∃ next, Ext3.ext3Delete Ext3.emptyDirectory [47, 100, 47, 47] =
          .ok (true, next) ∧
        ∃ left, Ext3.findFile next [47, 100] = .ok (some left)) ∧
    ∃ entry,
      Fat32.findFile Fat32.emptyDirectory [47, 100, 47, 47] =
        .ok (some (entry, 2)) ∧
      ¬Fat32.ParentAgrees Fat32.emptyDirectory [47, 100, 47, 47] 2 entry ∧
      ∃ next, Fat32.fat32Delete Fat32.emptyDirectory [47, 100, 47, 47] =
          .ok (true, next) ∧
        ∃ left, Fat32.findFile next [47, 100] = .ok (some left) := by
  constructor
  · have hroot : (Ext3.readInode Ext3.emptyDirectory
        Ext3.rootInode).satisfies (fun inode => inode.isDirectory) = true := by
      decide +kernel
    have hfound : (Ext3.findFile Ext3.emptyDirectory
        [47, 100, 47, 47]).satisfies
          (fun found => found.any (fun pair => pair.2 = 12)) = true := by
      decide +kernel
    have hwalk : (Ext3.resolve Ext3.emptyDirectory
        [47, 100, 47, 47]).satisfies
          (fun found => found = some (2, 12)) = true := by
      decide +kernel
    have hparent : (Ext3.resolveParent Ext3.emptyDirectory
        [47, 100, 47, 47]).satisfies (fun result => result.1 = 12) = true := by
      decide +kernel
    have hdelete : (Ext3.ext3Delete Ext3.emptyDirectory
        [47, 100, 47, 47]).satisfies (fun result => result.1 &&
          (Ext3.findFile result.2 [47, 100]).satisfies Option.isSome) =
            true := by
      decide +kernel
    obtain ⟨⟨inode, number⟩, hfind, htwelve⟩ :=
      Outcome.exists_some_of_satisfies hfound
    obtain ⟨place, hresolve, hplace⟩ := Outcome.exists_of_satisfies hwalk
    rw [of_decide_eq_true hplace] at hresolve
    obtain rfl : number = 12 := of_decide_eq_true htwelve
    refine ⟨inode, Outcome.exists_of_satisfies hroot, hfind, hresolve, ?_, ?_⟩
    · rintro ⟨name, hresult, -⟩
      simp [hresult, Outcome.satisfies] at hparent
    · obtain ⟨⟨done, next⟩, hdeleted, hleft⟩ :=
        Outcome.exists_of_satisfies hdelete
      simp only [Bool.and_eq_true] at hleft
      obtain ⟨rfl, hstays⟩ := hleft
      obtain ⟨left, hstill, hsome⟩ := Outcome.exists_of_satisfies hstays
      obtain ⟨pair, rfl⟩ := Option.isSome_iff_exists.1 hsome
      exact ⟨next, hdeleted, pair, hstill⟩
  · have hfound : (Fat32.findFile Fat32.emptyDirectory
        [47, 100, 47, 47]).satisfies
          (fun found => found.any (fun pair => pair.2 = 2)) = true := by
      decide +kernel
    have hparent : (Fat32.resolveParentDirectory Fat32.emptyDirectory
        [47, 100, 47, 47]).satisfies (fun result => result.1 = 3) = true := by
      decide +kernel
    have hdelete : (Fat32.fat32Delete Fat32.emptyDirectory
        [47, 100, 47, 47]).satisfies (fun result => result.1 &&
          (Fat32.findFile result.2 [47, 100]).satisfies Option.isSome) =
            true := by
      decide +kernel
    obtain ⟨⟨entry, cluster⟩, hfind, htwo⟩ :=
      Outcome.exists_some_of_satisfies hfound
    obtain rfl : cluster = 2 := of_decide_eq_true htwo
    refine ⟨entry, hfind, ?_, ?_⟩
    · rintro ⟨name, hresult, -⟩
      simp [hresult, Outcome.satisfies] at hparent
    · obtain ⟨⟨done, next⟩, hdeleted, hleft⟩ :=
        Outcome.exists_of_satisfies hdelete
      simp only [Bool.and_eq_true] at hleft
      obtain ⟨rfl, hstays⟩ := hleft
      obtain ⟨left, hstill, hsome⟩ := Outcome.exists_of_satisfies hstays
      obtain ⟨pair, rfl⟩ := Option.isSome_iff_exists.1 hsome
      exact ⟨next, hdeleted, pair, hstill⟩

end ClOs
