import ClOs.Fat32Model

/-!
# Path resolution on a FAT32 volume

`find_file` looks the names of a path up one after another from the root
cluster, and `resolve_parent_directory` cuts the path at its last slash.
-/

namespace ClOs.Fat32

open ByteStore

theorem rootCluster_lt (v : Volume) : v.rootCluster < 4294967296 :=
  le32_lt _ _

namespace Entry

theorem root_attributes (cluster : ℕ) : (root cluster).attributes = 0x10 := by
  unfold root attributes put16 put8
  rw [blit_outside _ _ (by omega), blit_outside _ _ (by omega),
    blit_inside _ _ (by omega) (by omega)]
  rfl

theorem root_isDirectory (cluster : ℕ) : (root cluster).isDirectory = true := by
  simp [isDirectory, root_attributes]

/-- The two halves of a cluster number that are stored apart. -/
theorem firstCluster_eq
    {entry : Entry} {cluster : ℕ} (hcluster : cluster < 4294967296)
    (hlow : entry.le16 26 = (cluster &&& 0xFFFF) % 65536)
    (hhigh : entry.le16 20 = (cluster >>> 16 &&& 0xFFFF) % 65536) :
    entry.firstCluster = cluster := by
  have hmask : ∀ n : ℕ, n &&& 0xFFFF = n % 65536 := fun n =>
    Nat.and_two_pow_sub_one_eq_mod n 16
  rw [hmask] at hlow hhigh
  rw [Nat.shiftRight_eq_div_pow] at hhigh
  unfold firstCluster
  have hsplit := Nat.two_pow_add_eq_or_of_lt (i := 16)
    (b := cluster % 65536) (by omega) (cluster / 65536)
  have hhighword : entry.le16 20 = cluster / 65536 := by omega
  have hlowword : entry.le16 26 = cluster % 65536 := by omega
  rw [hhighword, hlowword, Nat.shiftLeft_eq, Nat.or_comm, Nat.mul_comm,
    ← hsplit]
  omega

theorem root_firstCluster {cluster : ℕ} (hcluster : cluster < 4294967296) :
    (root cluster).firstCluster = cluster := by
  refine firstCluster_eq hcluster ?_ (le16_put16_same _ _ _)
  unfold root
  generalize (put8 (fun _ => 0) 11 0x10) = store
  have hkeep : ((store.put16 26 (cluster &&& 0xFFFF)).put16 20
      (cluster >>> 16 &&& 0xFFFF)).le16 26 =
        (store.put16 26 (cluster &&& 0xFFFF)).le16 26 :=
    (blit_agreeOn _ _ (.inr (by omega : 20 + 2 ≤ 26))).le16_eq 26 le_rfl
      (le_refl 28)
  rw [hkeep, le16_put16_same]

end Entry

/-- What a list of names stands for: the root if there is none, and otherwise
the entry found by looking one up after another. -/
def lookupPath (v : Volume) (names : List CString) :
    Outcome (Option (Entry × ℕ)) :=
  if names = [] then
    return some (Entry.root v.rootCluster, v.rootCluster)
  else do
    match ← walkNames (findToken v) enterEntry v.rootCluster names with
    | none => return none
    | some (cluster, entry) => return some (entry, cluster)

theorem findFile_eq_lookupPath
    {v : Volume} {path : CString}
    (hlength : (dropSlash path).length < 256) :
    findFile v path = lookupPath v (components path) := by
  have hcopy := copyPath_eq_ok.2 ⟨hlength, rfl⟩
  have hiff : components path = [] ↔ stripSlashes (dropSlash path) = [] := by
    rw [← components_eq_nil_iff, components_dropSlash]
  unfold findFile lookupPath
  simp only [hcopy, hiff, bind, Except.bind]
  split_ifs with hempty
  · rfl
  · have hscan : scanPath (findToken v) enterEntry
        ((stripSlashes (dropSlash path)).length + 1) v.rootCluster
        (stripSlashes (dropSlash path)) =
          walkNames (findToken v) enterEntry v.rootCluster (components path) := by
      rw [scanPath_eq_findTokens _ _ _ (Nat.lt_succ_self _),
        findTokens_splitOn _ _ _ hempty (getLast?_stripSlashes _),
        components_stripSlashes, components_dropSlash]
    generalize scanPath (findToken v) enterEntry
      ((stripSlashes (dropSlash path)).length + 1) v.rootCluster
      (stripSlashes (dropSlash path)) = found at hscan ⊢
    subst hscan
    rfl

theorem findFile_length
    {v : Volume} {path : CString} {result : Option (Entry × ℕ)}
    (hfind : findFile v path = .ok result) :
    (dropSlash path).length < 256 := by
  unfold findFile at hfind
  rw [Outcome.bind_eq_ok] at hfind
  obtain ⟨copy, hcopy, -⟩ := hfind
  exact (copyPath_eq_ok.1 hcopy).1

theorem lookupPath_eq_some
    {v : Volume} {names : List CString} {entry : Entry} {cluster : ℕ}
    (hnames : names ≠ []) :
    lookupPath v names = .ok (some (entry, cluster)) ↔
      walkNames (findToken v) enterEntry v.rootCluster names =
        .ok (some (cluster, entry)) := by
  unfold lookupPath
  rw [if_neg hnames]
  cases walkNames (findToken v) enterEntry v.rootCluster names with
  | error halt => simp [bind, Except.bind]
  | ok found =>
      cases found with
      | none => simp [bind, Except.bind, pure, Except.pure]
      | some pair =>
          simp [bind, Except.bind, pure, Except.pure, Prod.ext_iff, and_comm]

theorem enterEntry_eq_some {entry : Entry} {child : ℕ} :
    enterEntry entry = .ok (some child) ↔
      entry.isDirectory = true ∧ entry.firstCluster = child := by
  unfold enterEntry
  cases entry.isDirectory <;> simp

theorem resolveParentDirectory_named
    {v : Volume} {path : CString} {entry : Entry} {cluster : ℕ}
    (hfind : findFile v path = .ok (some (entry, cluster)))
    (hname : fileName path ≠ []) :
    resolveParentDirectory v path = .ok (cluster, fileName path) ∧
      findToken v cluster (fileName path) = .ok (some entry) := by
  have hlength := findFile_length hfind
  have hcopy := copyPath_eq_ok.2 ⟨hlength, rfl⟩
  rw [findFile_eq_lookupPath hlength] at hfind
  unfold resolveParentDirectory
  simp only [hcopy, bind, Except.bind]
  rcases components_fileName hname with
    ⟨hcut, hnames⟩ | ⟨i, hcut, hfile, hnames⟩
  · rw [hnames, lookupPath_eq_some (by simp),
      walkNames_singleton_eq_some] at hfind
    obtain ⟨hcluster, hfound⟩ := hfind
    simp only at hcluster hfound
    subst hcluster
    have hstripped : fileName path = stripSlash (dropSlash path) := by
      simp [fileName, hcut]
    rw [hcut, ← hstripped]
    exact ⟨rfl, hfound⟩
  · have hshort := (length_parent_le path i).trans_lt hlength
    rw [hnames, lookupPath_eq_some (by simp)] at hfind
    rw [hcut]
    simp only [findFile_eq_lookupPath hshort, ← hfile]
    by_cases hempty : components ((stripSlash (dropSlash path)).take i) = []
    · rw [hempty, List.nil_append, walkNames_singleton_eq_some] at hfind
      obtain ⟨hcluster, hfound⟩ := hfind
      simp only at hcluster hfound
      subst hcluster
      refine ⟨?_, hfound⟩
      rw [hempty]
      simp only [lookupPath, if_true, pure, Except.pure,
        Entry.root_isDirectory, Entry.root_firstCluster (rootCluster_lt v)]
    · rw [walkNames_concat _ _ _ _ hempty, Outcome.bind_eq_ok] at hfind
      obtain ⟨reached, hreached, hfind⟩ := hfind
      cases reached with
      | none => simp at hfind
      | some pair =>
          simp only at hfind
          rw [Outcome.bind_eq_ok] at hfind
          obtain ⟨entered, henter, hfind⟩ := hfind
          cases entered with
          | none => simp at hfind
          | some child =>
              obtain ⟨hplace, hfound⟩ := walkNames_singleton_eq_some.1 hfind
              obtain ⟨hdirectory, hfirst⟩ := enterEntry_eq_some.1 henter
              simp only at hplace hfound
              subst hplace
              refine ⟨?_, hfound⟩
              rw [(lookupPath_eq_some hempty).2 hreached]
              simp only [hdirectory, if_true, hfirst, pure, Except.pure]

theorem resolveParentDirectory_name
    {v : Volume} {path name : CString} {cluster : ℕ}
    (hparent : resolveParentDirectory v path = .ok (cluster, name)) :
    name = fileName path := by
  unfold resolveParentDirectory at hparent
  rw [Outcome.bind_eq_ok] at hparent
  obtain ⟨copy, hcopy, hparent⟩ := hparent
  obtain ⟨-, rfl⟩ := copyPath_eq_ok.1 hcopy
  unfold fileName
  simp only at hparent ⊢
  cases hcut : lastSlash (stripSlash (dropSlash path)) with
  | none =>
      simp only [hcut, pure, Except.pure, Except.ok.injEq,
        Prod.mk.injEq] at hparent
      exact hparent.2.symm
  | some i =>
      simp only [hcut] at hparent
      rw [Outcome.bind_eq_ok] at hparent
      obtain ⟨found, -, hparent⟩ := hparent
      cases found with
      | none =>
          simp only [pure, Except.pure, Except.ok.injEq,
            Prod.mk.injEq] at hparent
          exact hparent.2.symm
      | some pair =>
          simp only [pure, Except.pure, Except.ok.injEq,
            Prod.mk.injEq] at hparent
          exact hparent.2.symm

end ClOs.Fat32
