import ClOs.Fat32Insertion
import ClOs.NamedTrees
import Mathlib.Data.List.Find

/-!
# The tree of a volume

The directories of a volume hold entries under 11-byte names, and every entry leads
to the chain of a file or a directory.  On a sound volume these chains are apart
from each other, and a path is followed through the tree by the short forms of its
names.
-/

namespace ClOs.Fat32

open ByteStore

def shortNames (path : CString) : List (List UInt8) :=
  (components path).map filenameToFat32

def parentNames (path : CString) : List (List UInt8) :=
  (shortNames path).dropLast

namespace Volume

def forest (v : Volume) : Forest ℕ Entry (List UInt8) where
  root := v.rootCluster
  items := v.entries
  target := Entry.firstCluster
  inner := Entry.isDirectory
  name := Entry.name

/-- A volume on which every file and directory owns a chain. -/
structure Sound (v : Volume) : Prop where
  geometry : v.bpb.Geometry
  tree : v.forest.Tree
  ends : ∀ x, v.forest.Owned x → v.Ends x
  disjoint : ∀ x y, v.forest.Owned x → v.forest.Owned y → x ≠ y →
    (v.chain x).Disjoint (v.chain y)
  plain : ∀ d, v.forest.Directory d → ∀ e ∈ v.entries d, e.isLongName = false
  closed : ∀ d, v.forest.Directory d → v.Closed d

/-- A sound volume with one entry for a name in every directory. -/
structure WellFormed (v : Volume) : Prop extends v.Sound where
  unique : v.forest.Unique

/-- A volume with its files and directories laid out on it, however far the sectors
lie behind those that the drive can name. -/
structure Laid (v : Volume) : Prop where
  covers : v.bpb.Covers
  tree : v.forest.Tree
  ends : ∀ x, v.forest.Owned x → v.Ends x
  disjoint : ∀ x y, v.forest.Owned x → v.forest.Owned y → x ≠ y →
    (v.chain x).Disjoint (v.chain y)
  plain : ∀ d, v.forest.Directory d → ∀ e ∈ v.entries d, e.isLongName = false
  closed : ∀ d, v.forest.Directory d → v.Closed d
  unique : v.forest.Unique

def owners (v : Volume) (ds : List ℕ) : List ℕ :=
  v.rootCluster :: ds.flatMap fun d => (v.entries d).map Entry.firstCluster

structure Arranged (v : Volume) (ds : List ℕ) : Prop where
  root : v.rootCluster ∈ ds
  inner : ∀ d ∈ ds, ∀ e ∈ v.entries d,
    e.isDirectory = true → e.firstCluster ∈ ds
  ends : ∀ x ∈ v.owners ds, v.Ends x
  apart : ((v.owners ds).flatMap v.chain).Nodup
  plain : ∀ d ∈ ds, ∀ e ∈ v.entries d, e.isLongName = false
  blank : ∀ d ∈ ds, ∀ e ∈ ((v.slots d).dropWhile (fun e => !e.isEnd)).tail,
    ∀ k < 32, e k = 0
  names : ∀ d ∈ ds, ((v.entries d).map Entry.name).Nodup

instance (v : Volume) (ds : List ℕ) : Decidable (v.Arranged ds) :=
  decidable_of_iff (v.rootCluster ∈ ds ∧
      (∀ d ∈ ds, ∀ e ∈ v.entries d,
        e.isDirectory = true → e.firstCluster ∈ ds) ∧
      (∀ x ∈ v.owners ds, v.Ends x) ∧
      ((v.owners ds).flatMap v.chain).Nodup ∧
      (∀ d ∈ ds, ∀ e ∈ v.entries d, e.isLongName = false) ∧
      (∀ d ∈ ds, ∀ e ∈ ((v.slots d).dropWhile (fun e => !e.isEnd)).tail,
        ∀ k < 32, e k = 0) ∧
      ∀ d ∈ ds, ((v.entries d).map Entry.name).Nodup)
    ⟨fun ⟨h, h₁, h₂, h₃, h₄, h₅, h₆⟩ => ⟨h, h₁, h₂, h₃, h₄, h₅, h₆⟩,
      fun ⟨h, h₁, h₂, h₃, h₄, h₅, h₆⟩ => ⟨h, h₁, h₂, h₃, h₄, h₅, h₆⟩⟩

/-- A well-formed volume, seen from a list of its directories. -/
structure Listed (v : Volume) (ds : List ℕ) : Prop extends v.Arranged ds where
  geometry : v.bpb.Geometry

instance (v : Volume) (ds : List ℕ) : Decidable (v.Listed ds) :=
  decidable_of_iff (v.Arranged ds ∧ v.bpb.Geometry)
    ⟨fun ⟨h, h'⟩ => ⟨h, h'⟩, fun ⟨h, h'⟩ => ⟨h, h'⟩⟩

def Spare (v : Volume) (x : ℕ) : Prop :=
  ∀ y, v.forest.Owned y → x ∉ v.chain y

def lookup (v : Volume) (path : CString) : Option (Entry × ℕ) :=
  if components path = [] then some (Entry.root v.rootCluster, v.rootCluster)
  else (v.forest.follow v.rootCluster (shortNames path)).map Prod.swap

end Volume

/-- A path with at most one slash in front and one behind that fits into the array
of the driver. -/
structure Canonical (path : CString) : Prop where
  text : 0 ∉ path
  front : ¬[slash, slash] <+: path
  back : ¬[slash, slash] <:+ path
  length : path.length < 256

/-- A path leads to the same entry on both volumes, and a file there has the same
bytes. -/
structure Keeps (v w : Volume) (path : CString) : Prop where
  found : findFile w path = findFile v path
  read : ∀ e d, findFile v path = .ok (some (e, d)) → e.isDirectory = false →
    ∀ buffer, fat32ReadFile w path buffer = fat32ReadFile v path buffer

section

variable {v w next : Volume} {d x first : ℕ} {e : Entry} {path : CString}
  {names : List CString} {entries clusters : Set ℕ}

@[simp] theorem forest_root : v.forest.root = v.rootCluster := rfl

@[simp] theorem forest_items : v.forest.items d = v.entries d := rfl

@[simp] theorem forest_target : v.forest.target e = e.firstCluster := rfl

@[simp] theorem forest_inner : v.forest.inner e = e.isDirectory := rfl

@[simp] theorem forest_name : v.forest.name e = e.name := rfl

theorem Volume.directory_root (v : Volume) : v.forest.Directory v.rootCluster :=
  Forest.Directory.root

theorem slots_outside {f : Entry} (hf : f ∈ v.slots d) {k : ℕ} (hk : 32 ≤ k) :
    f k = 0 := by
  obtain ⟨x, -, hrow⟩ := List.mem_flatMap.1 hf
  obtain ⟨i, -, rfl⟩ := List.mem_map.1 hrow
  exact if_neg (Nat.not_lt.2 hk)

/-- The well-formed volumes are those laid out within the reach of the drive. -/
theorem Volume.wellFormed_iff :
    v.WellFormed ↔ v.Laid ∧ v.bpb.sectors ≤ 268435456 := by
  constructor
  · intro h
    obtain ⟨hcovers, haddressed⟩ := Bpb.geometry_iff.1 h.geometry
    exact ⟨⟨hcovers, h.tree, h.ends, h.disjoint, h.plain, h.closed, h.unique⟩,
      haddressed⟩
  · rintro ⟨h, haddressed⟩
    exact ⟨⟨Bpb.geometry_iff.2 ⟨h.covers, haddressed⟩, h.tree, h.ends, h.disjoint,
      h.plain, h.closed⟩, h.unique⟩

theorem Volume.Arranged.laid
    {ds : List ℕ} (h : v.Arranged ds) (hcovers : v.bpb.Covers) : v.Laid := by
  have hlist : ∀ {x}, v.forest.Directory x → x ∈ ds :=
    fun hx => Forest.directory_mem h.root h.inner hx
  have howners : ∀ {x}, v.forest.Owned x → x ∈ v.owners ds := by
    rintro x (rfl | ⟨d, e, hd, he, rfl⟩)
    · exact List.mem_cons_self
    · exact List.mem_cons_of_mem _
        (List.mem_flatMap.2 ⟨d, hlist hd, List.mem_map_of_mem he⟩)
  obtain ⟨-, hpairs⟩ := List.nodup_flatMap.1 h.apart
  have hsymm : Std.Symm (Function.onFun List.Disjoint v.chain) :=
    ⟨fun _ _ hpair => hpair.symm⟩
  have hnodup : (v.owners ds).Nodup := by
    refine hpairs.imp_of_mem fun {x y} hx _ hpair hsame => ?_
    have hends := h.ends x hx
    have hmem := hends.chain.first_mem (hends.start.2.trans hcovers.numbers)
    exact hpair hmem (hsame ▸ hmem)
  refine ⟨hcovers, Forest.tree_of_nodup h.root h.inner hnodup,
    fun x hx => h.ends x (howners hx), ?_, ?_, ?_, ?_⟩
  · exact fun x y hx hy hne => hpairs.forall (howners hx) (howners hy) hne
  · exact fun d hd => h.plain d (hlist hd)
  · intro d hd f hf
    funext k
    by_cases hk : k < 32
    · exact h.blank d (hlist hd) f hf k hk
    · exact slots_outside ((List.dropWhile_suffix _).subset
        (List.mem_of_mem_tail hf)) (Nat.not_lt.1 hk)
  · exact fun d hd => h.names d (hlist hd)

theorem Volume.Listed.wellFormed {ds : List ℕ} (h : v.Listed ds) :
    v.WellFormed := by
  obtain ⟨hcovers, haddressed⟩ := Bpb.geometry_iff.1 h.geometry
  exact Volume.wellFormed_iff.2 ⟨h.laid hcovers, haddressed⟩

/-- A free cluster is on no chain. -/
theorem Volume.Sound.spare_of_free
    (h : v.Sound) (hfree : v.Free x) : v.Spare x :=
  fun y hy hmem => (h.ends y hy).link_ne_zero hmem hfree.2

/-! ## Lookups -/

/-- A name is looked up among the entries of a directory. -/
theorem Volume.Sound.findToken_eq
    (h : v.Sound) (hd : v.forest.Directory d) (token : CString) :
    findToken v d token = .ok (v.forest.find d (filenameToFat32 token)) := by
  unfold findToken
  rw [findEntryInCluster_eq h.geometry (h.ends d hd.owned)]
  unfold Forest.find
  rw [forest_items]
  unfold Volume.entries
  rw [List.find?_filter]
  congr 1
  refine List.find?_congr fun f hf => ?_
  by_cases hname : f.name = filenameToFat32 token
  · have hdots : f.name ∉ dotNames :=
      hname ▸ filenameToFat32_notMem_dotNames token
    have hmem : f ∈ v.entries d :=
      List.mem_filter.2 ⟨hf, decide_eq_true hdots⟩
    simp [h.plain d hd f hmem, hname, filenameToFat32_notMem_dotNames]
  · simp [hname]

/-- Looking names up one after another follows the tree. -/
theorem Volume.Sound.walkNames_eq
    (h : v.Sound) (hd : v.forest.Directory d) (names : List CString) :
    walkNames (findToken v) enterEntry d names =
      .ok (v.forest.follow d (names.map filenameToFat32)) := by
  induction names generalizing d with
  | nil => rfl
  | cons name rest ih =>
      cases rest with
      | nil =>
          simp only [walkNames, h.findToken_eq hd, bind, Except.bind,
            List.map_cons, List.map_nil, Forest.follow]
          cases v.forest.find d (filenameToFat32 name) <;> rfl
      | cons next others =>
          simp only [walkNames, h.findToken_eq hd, bind, Except.bind,
            List.map_cons, Forest.follow]
          cases hfind : v.forest.find d (filenameToFat32 name) with
          | none => rfl
          | some e =>
              simp only [enterEntry, Option.bind_some, forest_inner,
                forest_target]
              by_cases hinner : e.isDirectory = true
              · simp only [hinner, if_true]
                exact ih (.child hd (Forest.find_eq_some hfind).1 hinner)
              · simp only [hinner]
                rfl

theorem Volume.Sound.findFile_eq
    (h : v.Sound) (hlength : (dropSlash path).length < 256) :
    findFile v path = .ok (v.lookup path) := by
  rw [findFile_eq_lookupPath hlength]
  unfold lookupPath Volume.lookup
  split_ifs with hnames
  · rfl
  · rw [h.walkNames_eq v.directory_root]
    simp only [bind, Except.bind]
    unfold shortNames
    cases v.forest.follow v.rootCluster
      ((components path).map filenameToFat32) <;> rfl

theorem shortNames_eq (hname : fileName path ≠ []) :
    shortNames path =
      parentNames path ++ [filenameToFat32 (fileName path)] := by
  have hlast := getLast?_components hname
  obtain ⟨front, hfront⟩ := List.getLast?_eq_some_iff.1 hlast
  unfold parentNames shortNames
  rw [hfront, List.map_append, List.map_singleton, List.dropLast_concat]

theorem Volume.lookup_eq (hname : fileName path ≠ []) :
    v.lookup path = (v.forest.follow v.rootCluster
      (parentNames path ++ [filenameToFat32 (fileName path)])).map
        Prod.swap := by
  have hnames : components path ≠ [] := by
    intro hnil
    have hlast := getLast?_components hname
    rw [hnil] at hlast
    cases hlast
  unfold Volume.lookup
  rw [if_neg hnames, shortNames_eq hname]

theorem Volume.lookup_eq_some (hname : fileName path ≠ []) :
    v.lookup path = some (e, d) ↔
      v.forest.enter v.rootCluster (parentNames path) = some d ∧
        v.forest.find d (filenameToFat32 (fileName path)) = some e := by
  rw [Volume.lookup_eq hname, Option.map_eq_some_iff]
  constructor
  · rintro ⟨⟨y, f⟩, hfollow, hswap⟩
    obtain ⟨rfl, rfl⟩ := Prod.mk.inj hswap
    exact Forest.follow_concat_eq_some.1 hfollow
  · rintro ⟨henter, hfind⟩
    exact ⟨(d, e), Forest.follow_concat_eq_some.2 ⟨henter, hfind⟩, rfl⟩

theorem Volume.Sound.resolveParentDirectory_eq
    (h : v.Sound) (hlength : (dropSlash path).length < 256)
    (hname : fileName path ≠ []) :
    resolveParentDirectory v path =
      .ok ((v.forest.enter v.rootCluster (parentNames path)).getD 0,
        fileName path) := by
  have hcopy := copyPath_eq_ok.2 ⟨hlength, rfl⟩
  unfold resolveParentDirectory
  simp only [hcopy, bind, Except.bind]
  rcases components_fileName hname with
    ⟨hcut, hnames⟩ | ⟨i, hcut, hfile, hnames⟩
  · have hparent : parentNames path = [] := by
      unfold parentNames shortNames
      rw [hnames]
      rfl
    have hstripped : fileName path = stripSlash (dropSlash path) := by
      simp [fileName, hcut]
    rw [hcut, hparent, ← hstripped]
    rfl
  · have hshort := (length_parent_le path i).trans_lt hlength
    have hparent : parentNames path = (components
        ((stripSlash (dropSlash path)).take i)).map filenameToFat32 := by
      unfold parentNames shortNames
      rw [hnames, List.map_append, List.map_singleton, List.dropLast_concat]
    rw [hcut, hparent]
    simp only [← hfile, h.findFile_eq hshort]
    unfold Volume.lookup shortNames
    split_ifs with hempty
    · rw [hempty]
      simp only [pure, Except.pure, Entry.root_isDirectory, if_true,
        Entry.root_firstCluster (rootCluster_lt v), List.map_nil, Forest.enter,
        Option.getD_some]
    · rw [Forest.enter_eq_bind_follow _ _ (by simpa using hempty)]
      cases v.forest.follow v.rootCluster ((components
        ((stripSlash (dropSlash path)).take i)).map filenameToFat32) with
      | none => rfl
      | some found =>
          obtain ⟨y, f⟩ := found
          simp only [Option.map_some, Prod.swap, Option.bind_some, pure,
            Except.pure]
          by_cases hinner : v.forest.inner f = true
          · have hdirectory : f.isDirectory = true := hinner
            rw [if_pos hinner, if_pos hdirectory]
            rfl
          · have hfile : ¬f.isDirectory = true := hinner
            rw [if_neg hinner, if_neg hfile]
            rfl

/-! ## Changes elsewhere -/

/-- A change of clusters on no chain leaves the tree as it is. -/
theorem Volume.Sound.frame
    (h : v.Sound) (hframe : v.Frame w entries clusters)
    (hentries : ∀ x ∈ entries, v.Spare x)
    (hclusters : ∀ x ∈ clusters, v.Spare x) :
    w.Sound ∧ v.forest.Agrees w.forest := by
  have hapart : ∀ {y}, v.forest.Owned y → (∀ x ∈ v.chain y, x ∉ entries) ∧
      ∀ x ∈ v.chain y, x ∉ clusters := fun hy =>
    ⟨fun x hx hmem => hentries x hmem _ hy hx,
      fun x hx hmem => hclusters x hmem _ hy hx⟩
  have hslots : ∀ y, v.forest.Directory y → w.slots y = v.slots y :=
    fun y hy => hframe.slots h.geometry (h.ends y hy.owned)
      (hapart hy.owned).1 (hapart hy.owned).2
  have hitems : ∀ y, v.forest.Directory y → w.entries y = v.entries y := by
    intro y hy
    unfold Volume.entries Volume.live
    rw [hslots y hy]
  have hchains : ∀ {y}, v.forest.Owned y →
      w.Ends y ∧ w.chain y = v.chain y := fun hy =>
    (h.ends _ hy).frame hframe h.geometry (hapart hy).1
  have hagrees : v.forest.Agrees w.forest := by
    refine ⟨?_, rfl, rfl, rfl, hitems⟩
    unfold Volume.forest Volume.rootCluster
    rw [hframe.bpb]
  refine ⟨⟨hframe.geometry h.geometry, hagrees.tree h.tree, ?_, ?_, ?_, ?_⟩,
    hagrees⟩
  · intro x hx
    exact (hchains (hagrees.owned_iff.1 hx)).1
  · intro x y hx hy hne
    rw [hagrees.owned_iff] at hx hy
    rw [(hchains hx).2, (hchains hy).2]
    exact h.disjoint x y hx hy hne
  · intro d hd e he
    rw [hagrees.directory_iff] at hd
    rw [hitems d hd] at he
    exact h.plain d hd e he
  · intro d hd
    rw [hagrees.directory_iff] at hd
    unfold Volume.Closed
    rw [hslots d hd]
    exact h.closed d hd

/-! ## What is kept -/

theorem Volume.lookup_eq_of_follow
    (hroot : w.rootCluster = v.rootCluster)
    (hfollow : w.forest.follow w.rootCluster (shortNames path) =
      v.forest.follow v.rootCluster (shortNames path)) :
    w.lookup path = v.lookup path := by
  unfold Volume.lookup
  rw [hfollow, hroot]

/-- A path that is too long for the array is found on neither volume. -/
theorem Volume.Sound.findFile_congr
    (h : v.Sound) (h' : w.Sound) (hlookup : w.lookup path = v.lookup path) :
    findFile w path = findFile v path := by
  by_cases hlength : (dropSlash path).length < 256
  · rw [h.findFile_eq hlength, h'.findFile_eq hlength, hlookup]
  · have hcopy : copyPath path = .error .outOfBounds := if_neg hlength
    unfold findFile
    simp only [hcopy, bind, Except.bind]

theorem Volume.Sound.lookup_of_findFile
    {found : Option (Entry × ℕ)} (h : v.Sound)
    (hfind : findFile v path = .ok found) : v.lookup path = found := by
  have hlength : (dropSlash path).length < 256 := by
    by_contra hlong
    have hcopy : copyPath path = .error .outOfBounds := if_neg hlong
    unfold findFile at hfind
    simp only [hcopy, bind, Except.bind] at hfind
    cases hfind
  rw [h.findFile_eq hlength] at hfind
  exact Except.ok.inj hfind

theorem Volume.Sound.mem_of_findFile
    (h : v.Sound) (hfind : findFile v path = .ok (some (e, d)))
    (hfile : e.isDirectory = false) :
    v.forest.Directory d ∧ e ∈ v.entries d := by
  have hlookup := h.lookup_of_findFile hfind
  unfold Volume.lookup at hlookup
  split_ifs at hlookup with hroot
  · obtain ⟨rfl, -⟩ := Prod.mk.inj (Option.some.inj hlookup)
    rw [Entry.root_isDirectory] at hfile
    cases hfile
  · obtain ⟨⟨y, f⟩, hfollow, hswap⟩ := Option.map_eq_some_iff.1 hlookup
    obtain ⟨rfl, rfl⟩ := Prod.mk.inj hswap
    exact Forest.mem_of_follow v.directory_root hfollow

/-- A path that leads nowhere on either volume. -/
theorem Volume.Sound.keeps_none
    (h : v.Sound) (h' : w.Sound) (hnone : v.lookup path = none)
    (hnone' : w.lookup path = none) : Keeps v w path where
  found := h.findFile_congr h' (hnone'.trans hnone.symm)
  read e d hfind := by
    rw [h.lookup_of_findFile hfind] at hnone
    cases hnone

/-- A file on a chain that is left alone is kept. -/
theorem Volume.Sound.keeps
    (h : v.Sound) (hframe : v.Frame w entries clusters)
    (hfound : findFile w path = findFile v path)
    (hapart : ∀ e d, findFile v path = .ok (some (e, d)) →
      e.isDirectory = false → ∀ x ∈ v.chain e.firstCluster,
        x ∉ entries ∧ x ∉ clusters) :
    Keeps v w path := by
  refine ⟨hfound, fun e d hfind hfile buffer => ?_⟩
  obtain ⟨hd, he⟩ := h.mem_of_findFile hfind hfile
  have hpast := hapart e d hfind hfile
  have hends : v.Ends e.firstCluster :=
    h.ends _ (Forest.owned_of_mem hd he)
  obtain ⟨hends', hchain⟩ := hends.frame hframe h.geometry
    fun x hx => (hpast x hx).1
  have hcontents : w.contents (v.chain e.firstCluster) =
      v.contents (v.chain e.firstCluster) :=
    hframe.contents hends.cluster fun x hx => (hpast x hx).2
  unfold fat32ReadFile
  simp only [hfound, hfind, bind, Except.bind]
  rw [readClusters_eq h.geometry hends,
    readClusters_eq (hframe.geometry h.geometry) hends', hchain, hcontents,
    hframe.bytesPerCluster]

end

end ClOs.Fat32
