import ClOs.Ext3Handles
import ClOs.Fat32Folders

/-!
# Listing a directory

`fat32_list_directory` prints a line for every entry of a directory.  Its scan of a
cluster ends at an end marker but goes on with the next cluster, so that it shows
the entries that a lookup can find only where nothing lies behind the marker.
-/

namespace ClOs.Fat32

open ByteStore

/-! ## The listing -/

def Entry.listingLine (entry : Entry) : CString :=
  (if entry.isDirectory then asciiBytes "[DIR]  "
    else asciiBytes "[FILE] ") ++ entry.name.takeWhile (· ≠ 0) ++
  (if entry.isDirectory then []
    else asciiBytes "  (" ++ decimalBytes entry.size ++
      asciiBytes " bytes)") ++ asciiBytes "\n"

/-- The loop of `fat32_list_directory` over the entries of a cluster. -/
def listRow : List Entry → CString
  | [] => []
  | entry :: rest =>
      if entry.isEnd then []
      else if entry.isDeleted then listRow rest
      else if entry.isLongName then listRow rest
      else entry.listingLine ++ listRow rest

def listClusters (v : Volume) : ℕ → ℕ → CString → Outcome CString
  | 0, _, _ => .error .endless
  | fuel + 1, cluster, printed =>
      if IsCluster cluster then do
        let buffer ← readCluster v cluster
        let next ← getNextCluster v cluster
        listClusters v fuel next
          (printed ++ listRow (rowOf v.entriesPerCluster buffer.bytes))
      else return printed

/-- `fat32_list_directory`: the result and what it prints. -/
def fat32ListDirectory (v : Volume) (path : CString) :
    Outcome (Bool × CString) := do
  match ← findFile v path with
  | none => return (false, asciiBytes "Directory not found\n")
  | some (entry, _) =>
      if entry.isDirectory then
        let first :=
          if entry.firstCluster = 0 then v.rootCluster else entry.firstCluster
        return (true, ← listClusters v chainFuel first
          (asciiBytes "Contents:\n"))
      else return (false, asciiBytes "Not a directory\n")

/-- The entries of a directory that are shown. -/
def Volume.shown (v : Volume) (first : ℕ) : List Entry :=
  (v.live first).filter (fun e => !e.isLongName)

def Volume.listing (v : Volume) (first : ℕ) : CString :=
  asciiBytes "Contents:\n" ++ (v.shown first).flatMap Entry.listingLine

section

variable {v w next : Volume} {first d : ℕ} {e f : Entry} {path other : CString}
  {name : List UInt8}

theorem listRow_eq (slots : List Entry) :
    listRow slots = ((liveSlots Entry.isEnd Entry.isDeleted slots).filter
      (fun e => !e.isLongName)).flatMap Entry.listingLine := by
  induction slots with
  | nil => rfl
  | cons e rest ih =>
      unfold listRow
      split_ifs with hend hgone hlong
      · rw [liveSlots_cons_of_end hend]
        rfl
      · rw [liveSlots_cons_of_gone (by simpa using hend) hgone, ih]
      · rw [liveSlots_cons_of_live (by simpa using hend) (by simpa using hgone),
          List.filter_cons_of_neg (by simp [hlong]), ih]
      · rw [liveSlots_cons_of_live (by simpa using hend) (by simpa using hgone),
          List.filter_cons_of_pos (by simp [hlong]), List.flatMap_cons, ih]

theorem listClusters_chain
    (hgeometry : v.bpb.Geometry) {cs : List ℕ}
    (hchain : ChainFrom v.link Continues first cs)
    (hcs : ∀ x ∈ cs, v.bpb.Has x)
    {fuel : ℕ} (hfuel : cs.length < fuel) (printed : CString) :
    listClusters v fuel first printed =
      .ok (printed ++ cs.flatMap fun x => listRow (v.row x)) := by
  induction cs generalizing first fuel printed with
  | nil =>
      obtain ⟨fuel, rfl⟩ := Nat.exists_eq_succ_of_ne_zero hfuel.ne'
      rw [listClusters, if_neg (not_isCluster hchain), List.flatMap_nil,
        List.append_nil]
      rfl
  | cons c rest ih =>
      obtain ⟨fuel, rfl⟩ := Nat.exists_eq_succ_of_ne_zero
        (Nat.zero_lt_of_lt hfuel).ne'
      obtain ⟨rfl, -, hrest⟩ := hchain
      have hhas := hcs c List.mem_cons_self
      rw [listClusters, if_pos (hgeometry.isCluster hhas)]
      simp only [readCluster_eq hgeometry hhas, bind, Except.bind,
        getNextCluster_eq hgeometry.tables (hgeometry.hasEntry hhas)]
      rw [ih hrest (fun x hx => hcs x (List.mem_cons_of_mem _ hx))
        (Nat.lt_of_succ_lt_succ hfuel), List.flatMap_cons, List.append_assoc]
      rfl

theorem listClusters_eq
    (hgeometry : v.bpb.Geometry) (hends : v.Ends first)
    (hclosed : v.Closed first) (printed : CString) :
    listClusters v chainFuel first printed =
      .ok (printed ++ (v.shown first).flatMap Entry.listingLine) := by
  have hfuel : (v.chain first).length < chainFuel := by
    have hlength := Volume.length_le_clusters hends.chain hends.cluster
    have hclusters := hgeometry.clusters_le
    unfold chainFuel
    omega
  have hlive : v.live first = (v.chain first).flatMap fun x =>
      liveSlots Entry.isEnd Entry.isDeleted (v.row x) :=
    ClosedBy.liveSlots_rows blankEntry_isEnd hclosed
  rw [listClusters_chain hgeometry hends.chain hends.cluster hfuel]
  unfold Volume.shown
  rw [hlive, List.filter_flatMap, List.flatMap_assoc]
  simp only [listRow_eq]

/-! ## Directories of a volume -/

theorem Volume.Sound.enter_of_findFile
    (h : v.Sound) (hfind : findFile v path = .ok (some (e, d)))
    (hdirectory : e.isDirectory = true) :
    v.forest.enter v.rootCluster (shortNames path) = some e.firstCluster := by
  have hlookup := h.lookup_of_findFile hfind
  unfold Volume.lookup at hlookup
  split_ifs at hlookup with hroot
  · obtain ⟨rfl, -⟩ := Prod.mk.inj (Option.some.inj hlookup)
    rw [shortNames_eq_nil_iff.2 hroot,
      Entry.root_firstCluster (rootCluster_lt v)]
    rfl
  · obtain ⟨⟨y, f⟩, hfollow, hswap⟩ := Option.map_eq_some_iff.1 hlookup
    obtain ⟨rfl, rfl⟩ := Prod.mk.inj hswap
    have hinner : v.forest.inner f = true := hdirectory
    rw [Forest.enter_eq_bind_follow _ _
      fun hnil => hroot (shortNames_eq_nil_iff.1 hnil), hfollow,
      Option.bind_some, if_pos hinner]
    rfl

theorem Volume.Sound.fat32ListDirectory_eq
    (h : v.Sound) (hfind : findFile v path = .ok (some (e, d)))
    (hdirectory : e.isDirectory = true) :
    fat32ListDirectory v path = .ok (true, v.listing e.firstCluster) := by
  have hd := Forest.directory_of_enter v.directory_root
    (h.enter_of_findFile hfind hdirectory)
  have hends := h.ends _ hd.owned
  have hnonzero : e.firstCluster ≠ 0 := by
    have hlow := hends.start.1
    omega
  unfold fat32ListDirectory Volume.listing
  simp only [hfind, bind, Except.bind]
  rw [if_pos hdirectory, if_neg hnonzero,
    listClusters_eq h.geometry hends (h.closed _ hd)]
  rfl

/-- The lines of a listing other than `.` and `..` are the entries that the paths
below the directory lead to. -/
theorem fat32ListDirectory_lists
    (h : v.WellFormed) (hfind : findFile v path = .ok (some (e, d)))
    (hdirectory : e.isDirectory = true) :
    ∃ shown : List Entry,
      fat32ListDirectory v path = .ok (true, asciiBytes "Contents:\n" ++
        shown.flatMap Entry.listingLine) ∧
      ((shown.map Entry.name).filter fun n => decide (n ∉ dotNames)).Nodup ∧
      ∀ other f y, (dropSlash other).length < 256 →
        ∀ name, shortNames other = shortNames path ++ [name] →
          (findFile v other = .ok (some (f, y)) ↔
            y = e.firstCluster ∧ f ∈ shown ∧ f.name = name) := by
  have hfront := h.toSound.enter_of_findFile hfind hdirectory
  have hd := Forest.directory_of_enter v.directory_root hfront
  have hentries : ∀ f, f ∈ v.entries e.firstCluster ↔
      f ∈ v.shown e.firstCluster ∧ f.name ∉ dotNames := by
    intro f
    constructor
    · intro hf
      obtain ⟨hlive, hname⟩ := List.mem_filter.1 hf
      exact ⟨List.mem_filter.2 ⟨hlive, by simp [h.plain _ hd f hf]⟩,
        of_decide_eq_true hname⟩
    · rintro ⟨hf, hname⟩
      exact List.mem_filter.2 ⟨(List.mem_filter.1 hf).1, decide_eq_true hname⟩
  refine ⟨v.shown e.firstCluster,
    h.toSound.fat32ListDirectory_eq hfind hdirectory, ?_, ?_⟩
  · refine (h.unique _ hd).sublist ?_
    rw [List.filter_map]
    refine List.Sublist.map _ ?_
    rw [forest_items]
    unfold Volume.shown Volume.entries
    exact List.filter_sublist.filter _
  · intro other f y hlength name hnames
    have hother : components other ≠ [] := by
      intro hnil
      rw [shortNames_eq_nil_iff.2 hnil] at hnames
      simp at hnames
    have hmem : name ∈ shortNames other := by
      rw [hnames]
      exact List.mem_append_right _ List.mem_cons_self
    obtain ⟨token, -, rfl⟩ := List.mem_map.1 hmem
    have hdots := filenameToFat32_notMem_dotNames token
    have hlookup : v.lookup other = some (f, y) ↔
        v.forest.enter v.rootCluster (shortNames path) = some y ∧
          v.forest.find y (filenameToFat32 token) = some f := by
      unfold Volume.lookup
      rw [if_neg hother, hnames, ← Forest.follow_concat_eq_some,
        Option.map_eq_some_iff]
      constructor
      · rintro ⟨⟨x, g⟩, hfollow, hswap⟩
        obtain ⟨rfl, rfl⟩ := Prod.mk.inj hswap
        exact hfollow
      · exact fun hfollow => ⟨(y, f), hfollow, rfl⟩
    rw [h.findFile_eq hlength, Except.ok.injEq, hlookup, hfront,
      Option.some.injEq]
    constructor
    · rintro ⟨rfl, hname⟩
      obtain ⟨hf, hsame⟩ := Forest.find_eq_some hname
      exact ⟨rfl, ((hentries f).1 hf).1, hsame⟩
    · rintro ⟨rfl, hf, hsame⟩
      have hplain : f.name ∉ dotNames := by
        rw [hsame]
        exact hdots
      have hitem : v.forest.find e.firstCluster f.name = some f :=
        h.unique.find hd ((hentries f).2 ⟨hf, hplain⟩)
      rw [hsame] at hitem
      exact ⟨rfl, hitem⟩

/-! ## One line more -/

/-- A directory has got one entry more, and the other directories have the same
slots in use as before. -/
structure Volume.Gains (v next : Volume) (d : ℕ) (e : Entry) : Prop where
  plain : e.isLongName = false
  live : ∃ before after, v.live d = before ++ after ∧
    next.live d = before ++ e :: after
  others : ∀ x, v.forest.Directory x → x ≠ d → next.live x = v.live x

theorem Volume.Gains.listing (h : v.Gains next d e) :
    ∃ before after, v.listing d = before ++ after ∧
      next.listing d = before ++ e.listingLine ++ after := by
  obtain ⟨before, after, hold, hnew⟩ := h.live
  have hline : (e :: after).filter (fun f => !f.isLongName) =
      e :: after.filter (fun f => !f.isLongName) :=
    List.filter_cons_of_pos (by simp [h.plain])
  refine ⟨asciiBytes "Contents:\n" ++ (before.filter
    (fun f => !f.isLongName)).flatMap Entry.listingLine,
    (after.filter (fun f => !f.isLongName)).flatMap Entry.listingLine, ?_, ?_⟩
  · unfold Volume.listing Volume.shown
    rw [hold, List.filter_append, List.flatMap_append, List.append_assoc]
  · unfold Volume.listing Volume.shown
    rw [hnew, List.filter_append, hline, List.flatMap_append, List.flatMap_cons]
    simp only [List.append_assoc]

theorem Volume.Gains.listing_eq {x : ℕ}
    (h : v.Gains next d e) (hx : v.forest.Directory x) (hne : x ≠ d) :
    next.listing x = v.listing x := by
  unfold Volume.listing Volume.shown
  rw [h.others x hx hne]

theorem Creates.gains {extra : List ℕ}
    (h : Creates v next d e extra) (hsound : v.Sound)
    (hd : v.forest.Directory d) : v.Gains next d e := by
  obtain ⟨w, cs, htakes, hadmits, hplaces⟩ := h.taken
  have hinserts := hplaces.inserts
  obtain ⟨hwsound, hagrees⟩ := htakes.sound hsound
  have hwd := hagrees.directory_iff.2 hd
  have hfree : ∀ x, v.forest.Directory x → ∀ y ∈ v.chain x, y ∉ cs :=
    fun x hx y hy hmem =>
      hsound.spare_of_free (htakes.free y hmem) x hx.owned hy
  have hkept : ∀ x, v.forest.Directory x → w.live x = v.live x := by
    intro x hx
    unfold Volume.live
    rw [htakes.frame.slots hsound.geometry (hsound.ends x hx.owned)
      (hfree x hx) (hfree x hx)]
  refine ⟨hadmits.plain, ?_, fun x hx hne => ?_⟩
  · obtain ⟨before, after, hold, hnew⟩ := hinserts.live
    have hone : liveSlots Entry.isEnd Entry.isDeleted [e] = [e] :=
      liveSlots_cons_of_live hadmits.used h.kept
    rw [hone, List.append_assoc] at hnew
    exact ⟨before, after, (hkept d hd).symm.trans hold, hnew⟩
  · have hwx := hagrees.directory_iff.2 hx
    have hslots := hinserts.slots_eq hwsound hwd hwx hne
    rw [← hkept x hx]
    unfold Volume.live
    rw [hslots]

theorem Deletes.gains
    (hdel : Deletes v next d e) (hsound : v.Sound)
    (hd : v.forest.Directory d) (he : e ∈ v.entries d)
    (hempty : v.Deletable e) : next.Gains v d e := by
  have hadds := (hdel.removes hsound hd he hempty).adds hsound.tree
  obtain ⟨before, after, hold, hnew⟩ := hdel.live
  refine ⟨hsound.plain d hd e he, ⟨before, after, hnew, hold⟩,
    fun x hx hne => ?_⟩
  have hvx : v.forest.Directory x := hadds.directory_iff.2 (.inl hx)
  have hother : x ≠ e.firstCluster := by
    rintro rfl
    exact hadds.fresh hx.owned
  have hslots := hdel.frame.slots hsound.geometry (hsound.ends x hvx.owned)
    (fun y hy hmem => hsound.disjoint x e.firstCluster hvx.owned
      (Forest.owned_of_mem hd he) hother hy hmem)
    (fun y hy hmem => hsound.disjoint x d hvx.owned hd.owned hne hy hmem)
  unfold Volume.live
  rw [hslots]

/-- The listings of two volumes that differ by one entry. -/
theorem Volume.Gains.lists
    {front : List (List UInt8)} {y : ℕ} (h : v.Gains next d e)
    (hsound : v.Sound) (hnext : next.Sound)
    (hfront : v.forest.enter v.rootCluster front = some d)
    (hfind : findFile v other = .ok (some (f, y)))
    (hsame : findFile next other = findFile v other)
    (hdirectory : f.isDirectory = true) :
    (shortNames other = front → ∃ before after,
      fat32ListDirectory v other = .ok (true, before ++ after) ∧
      fat32ListDirectory next other =
        .ok (true, before ++ e.listingLine ++ after)) ∧
    (shortNames other ≠ front →
      fat32ListDirectory next other = fat32ListDirectory v other) := by
  have hother := hsound.enter_of_findFile hfind hdirectory
  rw [hnext.fat32ListDirectory_eq (hsame.trans hfind) hdirectory,
    hsound.fat32ListDirectory_eq hfind hdirectory]
  constructor
  · rintro rfl
    rw [hfront, Option.some.injEq] at hother
    obtain ⟨before, after, hold, hnew⟩ := h.listing
    rw [← hother]
    exact ⟨before, after, by rw [hold], by rw [hnew]⟩
  · intro hne
    have hapart : f.firstCluster ≠ d := by
      rintro rfl
      exact hne (hsound.tree.enter_unique hother hfront)
    rw [h.listing_eq (Forest.directory_of_enter v.directory_root hother) hapart]

/-- Creating a file or directory adds its line to the listing of its directory, and
every other listing is the same. -/
theorem fat32ListDirectory_created
    {create : Call} {buffer : ByteStore} {size : ℕ}
    (h : v.Tidy) (hpath : Canonical path) (hroot : components path ≠ [])
    (hmissing : findFile v path = .ok none)
    (hparent : v.forest.enter v.rootCluster (parentNames path) ≠ none)
    (hhead : (filenameToFat32 (fileName path)).head? ≠ some 0xE5)
    (hfit : size + v.bytesPerCluster ≤ 4294967296)
    (hroom : v.clustersOf size + 1 ≤ v.freeClusters.card)
    (hcreate : create = .write path buffer size ∨
      create = .createDirectory path) :
    ∃ next e d, create.run v = .ok next ∧
      findFile next path = .ok (some (e, d)) ∧
      ∀ other f y, findFile v other = .ok (some (f, y)) →
        f.isDirectory = true →
        (shortNames other = parentNames path → ∃ before after,
          fat32ListDirectory v other = .ok (true, before ++ after) ∧
          fat32ListDirectory next other =
            .ok (true, before ++ e.listingLine ++ after)) ∧
        (shortNames other ≠ parentNames path →
          fat32ListDirectory next other = fat32ListDirectory v other) := by
  have hnamed := hpath.named hroot
  have hlookup : v.lookup path = none := h.toSound.lookup_of_findFile hmissing
  obtain ⟨d, hfront⟩ := Option.ne_none_iff_exists'.1 hparent
  obtain ⟨next, e, extra, hrun, hcreates, -, hentry⟩ :=
    Call.run_creates h hnamed hhead hlookup hfront hfit hroom hcreate
  have hnew : v.forest.find d e.name = none := by
    rw [hentry]
    exact Volume.find_eq_none_of_lookup hnamed.name hlookup hfront
  obtain ⟨hnext, henter, hfind, hkeeps⟩ :=
    hcreates.enters h.toWellFormed hfront hnew
  have hfound : next.lookup path = some (e, d) :=
    (Volume.lookup_eq_some hnamed.name).2 ⟨henter, hentry ▸ hfind⟩
  refine ⟨next, e, d, hrun, by rw [hnext.findFile_eq hnamed.length, hfound],
    fun other f y hother hdirectory => ?_⟩
  have hpast : ¬(parentNames path ++ [e.name]) <+: shortNames other := by
    intro hstart
    have hsome := h.toSound.enter_of_findFile hother hdirectory
    obtain ⟨post, hpost⟩ := hstart
    rw [← hpost, Forest.enter_append, Option.bind_eq_some_iff] at hsome
    obtain ⟨x, hx, -⟩ := hsome
    obtain ⟨y, g, hy, hg, -⟩ := Forest.enter_concat_eq_some.1 hx
    rw [hfront, Option.some.injEq] at hy
    rw [← hy, hnew] at hg
    cases hg
  exact (hcreates.gains h.toSound
    (Forest.directory_of_enter v.directory_root hfront)).lists h.toSound
      hnext.toSound hfront hother (hkeeps other hpast).found hdirectory

/-- Deleting a file or directory removes its line from the listing of its directory,
and every other listing is the same. -/
theorem fat32ListDirectory_deleted
    (h : v.WellFormed) (hpath : Canonical path) (hroot : components path ≠ [])
    (hdelete : fat32Delete v path = .ok (true, next)) :
    ∃ e d, findFile v path = .ok (some (e, d)) ∧
      ∀ other f y, findFile next other = .ok (some (f, y)) →
        f.isDirectory = true →
        (shortNames other = parentNames path → ∃ before after,
          fat32ListDirectory v other =
            .ok (true, before ++ e.listingLine ++ after) ∧
          fat32ListDirectory next other = .ok (true, before ++ after)) ∧
        (shortNames other ≠ parentNames path →
          fat32ListDirectory next other = fat32ListDirectory v other) := by
  have hnamed := hpath.named hroot
  obtain ⟨done, last, hrun, hreleases⟩ :=
    fat32Delete_releases h.toSound hnamed
  rw [hdelete, Except.ok.injEq, Prod.mk.injEq] at hrun
  obtain ⟨rfl, rfl⟩ := hrun
  cases hreleases with
  | @released _ e d hlookup hempty hdel =>
  obtain ⟨hfront, hentry⟩ := (Volume.lookup_eq_some hnamed.name).1 hlookup
  have hd := Forest.directory_of_enter v.directory_root hfront
  obtain ⟨he, hname⟩ := Forest.find_eq_some hentry
  have hnext := hdel.wellFormed h hd he hempty
  have hnfront := hdel.enter_front h hd he hempty hfront
  refine ⟨e, d, by rw [h.findFile_eq hnamed.length, hlookup],
    fun other f y hother hdirectory => ?_⟩
  have hpast : ¬(parentNames path ++ [e.name]) <+: shortNames other := by
    intro hstart
    have hsome := hnext.toSound.enter_of_findFile hother hdirectory
    obtain ⟨post, hpost⟩ := hstart
    have hgone := hdel.follow_target h hd he hempty hfront
    rw [← hpost, Forest.enter_append, Forest.enter_eq_bind_follow _ _ (by simp),
      hgone] at hsome
    cases hsome
  have hsame : findFile v other = findFile next other :=
    (h.findFile_congr hnext.toSound
      (hdel.lookup_eq h hd he hempty hfront hpast)).symm
  obtain ⟨hgained, hkept⟩ := (hdel.gains h.toSound hd he hempty).lists
    hnext.toSound h.toSound hnfront hother hsame hdirectory
  refine ⟨fun hparent => ?_, fun hne => (hkept hne).symm⟩
  obtain ⟨before, after, hold, hnew⟩ := hgained hparent
  exact ⟨before, after, hnew, hold⟩

end

/-! ## A small volume -/

theorem oneFile_root : ∃ e d, findFile oneFile [47] = .ok (some (e, d)) ∧
    e.isDirectory = true := by
  have hroot : (findFile oneFile [47]).satisfies
      (fun found => found.any fun f => f.1.isDirectory) = true := by
    decide +kernel
  obtain ⟨⟨e, d⟩, hfind, hdirectory⟩ := Outcome.exists_some_of_satisfies hroot
  exact ⟨e, d, hfind, hdirectory⟩

theorem oneFile_delete :
    ∃ next, fat32Delete oneFile [65] = .ok (true, next) := by
  have hdelete : (fat32Delete oneFile [65]).satisfies
      (fun result => result.1) = true := by
    decide +kernel
  obtain ⟨⟨done, next⟩, hrun, hdone⟩ := Outcome.exists_of_satisfies hdelete
  have htrue : done = true := hdone
  exact ⟨next, by rw [hrun, htrue]⟩

theorem fat32ListDirectory_lists_oneFile :
    ∃ e d, findFile oneFile [47] = .ok (some (e, d)) ∧ ∃ shown : List Entry,
      fat32ListDirectory oneFile [47] = .ok (true, asciiBytes "Contents:\n" ++
        shown.flatMap Entry.listingLine) ∧
      ((shown.map Entry.name).filter fun n => decide (n ∉ dotNames)).Nodup ∧
      ∀ other f y, (dropSlash other).length < 256 →
        ∀ name, shortNames other = shortNames [47] ++ [name] →
          (findFile oneFile other = .ok (some (f, y)) ↔
            y = e.firstCluster ∧ f ∈ shown ∧ f.name = name) := by
  obtain ⟨e, d, hfind, hdirectory⟩ := oneFile_root
  exact ⟨e, d, hfind,
    fat32ListDirectory_lists oneFile_listed.wellFormed hfind hdirectory⟩

theorem fat32ListDirectory_created_oneFile :
    ∃ next e d, (Call.write [67] (fun _ => 7) 3).run oneFile = .ok next ∧
      findFile next [67] = .ok (some (e, d)) ∧
      ∀ other f y, findFile oneFile other = .ok (some (f, y)) →
        f.isDirectory = true →
        (shortNames other = parentNames [67] → ∃ before after,
          fat32ListDirectory oneFile other = .ok (true, before ++ after) ∧
          fat32ListDirectory next other =
            .ok (true, before ++ e.listingLine ++ after)) ∧
        (shortNames other ≠ parentNames [67] →
          fat32ListDirectory next other = fat32ListDirectory oneFile other) :=
  @fat32ListDirectory_created oneFile [67] _ (fun _ => 7) 3 oneFile_tidy
    ⟨by decide, by decide, by decide, by decide⟩ (by decide) oneFile_missing
    (by decide +kernel) (by decide) (by decide +kernel) (by decide +kernel)
    (.inl rfl)

theorem fat32ListDirectory_deleted_oneFile :
    ∃ next, fat32Delete oneFile [65] = .ok (true, next) ∧
      ∃ e d, findFile oneFile [65] = .ok (some (e, d)) ∧
        ∀ other f y, findFile next other = .ok (some (f, y)) →
          f.isDirectory = true →
          (shortNames other = parentNames [65] → ∃ before after,
            fat32ListDirectory oneFile other =
              .ok (true, before ++ e.listingLine ++ after) ∧
            fat32ListDirectory next other = .ok (true, before ++ after)) ∧
          (shortNames other ≠ parentNames [65] →
            fat32ListDirectory next other =
              fat32ListDirectory oneFile other) := by
  obtain ⟨next, hdelete⟩ := oneFile_delete
  exact ⟨next, hdelete, fat32ListDirectory_deleted oneFile_listed.wellFormed
    ⟨by decide, by decide, by decide, by decide⟩ (by decide) hdelete⟩

end ClOs.Fat32
