import ClOs.Fat32Creation

/-!
# The course of a creation

`fat32_write_file` releases the old file, builds a chain of free clusters, fills it
and puts an entry for it into the directory, and `fat32_create_directory` does the
same with one cluster.  Either can run out of clusters on the way.
-/

namespace ClOs.Fat32

open ByteStore

def Volume.needed (v : Volume) (size : ℕ) : ℕ :=
  max 1 (ceilDiv size v.bytesPerCluster)

/-- `w` is `v` with the first bytes of a buffer in a new chain. -/
structure Stores (v w : Volume) (first : ℕ) (cs : List ℕ) (buffer : ByteStore)
    (size : ℕ) : Prop extends Takes v w first cs where
  stored : ∀ k < cs.length * v.bytesPerCluster, k < size →
    w.contents cs k = buffer k

/-- What a directory gets for a new entry: a slot, or another cluster if all of its
slots are in use. -/
inductive Places (v next : Volume) (d : ℕ) (e : Entry) : List ℕ → Prop
  | slot : v.Vacancy d → Inserts v next d e [] → Places v next d e []
  | cluster {x : ℕ} : ¬v.Vacancy d → Inserts v next d e [x] →
      Places v next d e [x]

/-- How `fat32_write_file` goes on when the old file is gone: there is no free
cluster, there are too few of them, the file is stored, or its entry finds no
place. -/
inductive Writes (v : Volume) (d : ℕ) (name : CString) (buffer : ByteStore)
    (size : ℕ) : ℕ → Volume → Prop
  | full : (∀ x, ¬v.Free x) → Writes v d name buffer size 0 v
  | short {next : Volume} : 0 < v.freeClusters.card →
      v.freeClusters.card + 1 < v.needed size →
      v.Frame next {x | v.Free x} ∅ → Writes v d name buffer size 0 next
  | stored {w next : Volume} {first : ℕ} {cs extra : List ℕ} :
      Stores v w first cs buffer size →
      cs.length = min (v.needed size) v.freeClusters.card →
      v.needed size ≤ v.freeClusters.card + 1 →
      Places w next d (newEntry name 0x20 first size) extra →
      Writes v d name buffer size (min size (cs.length * v.bytesPerCluster))
        next
  | dropped {w : Volume} {first : ℕ} {cs : List ℕ} :
      Stores v w first cs buffer size →
      cs.length = min (v.needed size) v.freeClusters.card →
      v.needed size ≤ v.freeClusters.card + 1 →
      ¬w.Vacancy d → (∀ x, ¬w.Free x) →
      Writes v d name buffer size (min size (cs.length * v.bytesPerCluster)) w

/-- How `fat32_create_directory` goes on when the path leads nowhere. -/
inductive Makes (v : Volume) (d : ℕ) (name : CString) : Bool → Volume → Prop
  | full : (∀ x, ¬v.Free x) → Makes v d name false v
  | stored {w next : Volume} {cluster : ℕ} {extra : List ℕ} :
      Takes v w cluster [cluster] → w.entries cluster = [] →
      w.Closed cluster →
      Places w next d (newEntry name 0x10 cluster 0) extra →
      Makes v d name true next
  | dropped {w : Volume} {cluster : ℕ} :
      Takes v w cluster [cluster] → ¬w.Vacancy d → (∀ x, ¬w.Free x) →
      Makes v d name true w

section

variable {v w next deleted : Volume} {d first last size count cluster : ℕ}
  {e : Entry} {path name : CString} {cs front : List ℕ} {buffer : ByteStore}

/-! ## The number of clusters -/

theorem clustersNeeded_eq
    (hgeometry : v.bpb.Geometry) (size : ℕ) :
    clustersNeeded v size = .ok (v.needed size) :=
  if_neg (bytesPerCluster_pos hgeometry).ne'

theorem needed_pos (v : Volume) (size : ℕ) : 0 < v.needed size :=
  lt_of_lt_of_le Nat.one_pos (le_max_left _ _)

/-- Without a wrap this is the number of clusters that the bytes fill. -/
theorem needed_eq
    (hgeometry : v.bpb.Geometry)
    (hsize : size + v.bytesPerCluster ≤ 4294967296) :
    v.needed size =
      max 1 ((size + v.bytesPerCluster - 1) / v.bytesPerCluster) := by
  have hpos := bytesPerCluster_pos hgeometry
  have hsum : sub32 (u32 (size + v.bytesPerCluster)) 1 =
      size + v.bytesPerCluster - 1 := by
    rcases Nat.lt_or_ge (size + v.bytesPerCluster) 4294967296 with hlt | hge
    · rw [u32_of_lt hlt, sub32_of_le (by omega) hlt]
    · have hwrap : size + v.bytesPerCluster = 4294967296 := by omega
      rw [hwrap]
      decide +kernel
  unfold Volume.needed ceilDiv
  rw [hsum]

theorem le_needed
    (hgeometry : v.bpb.Geometry)
    (hsize : size + v.bytesPerCluster ≤ 4294967296) :
    size ≤ v.needed size * v.bytesPerCluster := by
  have hpos := bytesPerCluster_pos hgeometry
  have hdiv := Nat.div_add_mod (size + v.bytesPerCluster - 1) v.bytesPerCluster
  have hmod := Nat.mod_lt (size + v.bytesPerCluster - 1) hpos
  have hmax := Nat.mul_le_mul_right v.bytesPerCluster (le_max_right 1
    ((size + v.bytesPerCluster - 1) / v.bytesPerCluster))
  rw [Nat.mul_comm] at hdiv
  rw [needed_eq hgeometry hsize]
  omega

/-! ## Storing the bytes -/

theorem Built.stores
    (h : Built v w count first last front) (hgeometry : v.bpb.Geometry)
    (buffer : ByteStore) (size : ℕ) :
    ∃ ended stored, linkCluster w last 0x0FFFFFF8 = .ok ended ∧
      writeClusters buffer size (size + chainFuel + 1) first 0 ended =
        .ok (min size ((front ++ [last]).length * v.bytesPerCluster), stored) ∧
      Stores v stored first (front ++ [last]) buffer size := by
  obtain ⟨ended, hend, hframe, hchain⟩ := h.close hgeometry
  have hegeometry := hframe.geometry hgeometry
  have hcs : ∀ x ∈ front ++ [last], ended.bpb.Has x := by
    rw [hframe.bpb]
    exact fun x hx => (h.free x hx).1
  have hlength := Volume.length_le_clusters hchain hcs
  have hclusters := hegeometry.clusters_le
  have hfuel : (front ++ [last]).length < size + chainFuel + 1 := by
    unfold chainFuel
    omega
  obtain ⟨stored, hwrite, hkeep, hbytes⟩ :=
    @writeClusters_chain ended first size 0 (front ++ [last]) hegeometry hchain
      hcs (Nat.zero_le size) _ hfuel buffer
  rw [Nat.zero_add, hframe.bytesPerCluster] at hwrite
  have hfirst : first ∈ front ++ [last] := List.mem_of_head? h.linked.head?_eq
  have hlinks : ChainFrom stored.link Continues first (front ++ [last]) :=
    hchain.congr fun x hx => hkeep.link hegeometry.tables
      (hegeometry.hasEntry (hcs x hx)) (Set.notMem_empty _)
  refine ⟨ended, stored, hend, hwrite,
    ⟨(hframe.trans hkeep).mono (by simp) (by simp), h.free, hlinks, hfirst⟩,
    fun k hk hsize => ?_⟩
  rw [← hframe.bytesPerCluster] at hk
  rw [hbytes k hk (by omega), Nat.zero_add]

theorem Built.length_eq
    (h : Built v w count first last front) :
    (front ++ [last]).length = min count v.freeClusters.card ∧
      count ≤ v.freeClusters.card + 1 := by
  have hsub : (front ++ [last]).toFinset ⊆ v.freeClusters := fun x hx =>
    Volume.mem_freeClusters.2 (h.free x (List.mem_toFinset.1 hx))
  have hcard := Finset.card_le_card hsub
  rw [List.toFinset_card_of_nodup h.nodup] at hcard
  rcases h.length with hlength | ⟨hlength, hfree⟩
  · exact ⟨by omega, by omega⟩
  · exact ⟨by omega, by omega⟩

/-! ## The entry -/

theorem createDirEntry_places
    (h : v.Sound) (hd : v.forest.Directory d)
    (hcursor : v.bpb.Has v.lastFreeCluster) (hname : 0 ∉ name)
    (attrs target size : ℕ) :
    (∃ next extra,
        createDirEntry v d name attrs target size = .ok (true, next) ∧
          Places v next d (newEntry name attrs target size) extra) ∨
      (¬v.Vacancy d ∧ (∀ x, ¬v.Free x) ∧
        createDirEntry v d name attrs target size = .ok (false, v)) := by
  rcases createDirEntry_ok h.geometry hcursor (h.ends d hd.owned)
      (h.closed d hd) hname attrs target size with
    ⟨hvacancy, next, hcreate, hinserts⟩ |
      ⟨hvacancy, next, cluster, hcreate, hinserts⟩ | hfull
  · exact .inl ⟨next, [], hcreate, .slot hvacancy hinserts⟩
  · exact .inl ⟨next, [cluster], hcreate, .cluster hvacancy hinserts⟩
  · exact .inr hfull

/-- The rest of a computation whose first part has a result. -/
theorem ok_bind {α β : Type} (a : α) (rest : α → Outcome β) :
    Except.bind (.ok a) rest = rest a := rfl

theorem Volume.Sound.directory_ne_zero
    (h : v.Sound) (hd : v.forest.Directory d) : d ≠ 0 := by
  have hstart := (h.ends d hd.owned).start.1
  omega

theorem fat32WriteFile_writes
    (hparent : resolveParentDirectory v path = .ok (d, name))
    {done : Bool} (hdelete : fat32Delete v path = .ok (done, deleted))
    (h : deleted.Sound) (hd : deleted.forest.Directory d)
    (hcursor : deleted.bpb.Has deleted.lastFreeCluster) (hname : 0 ∉ name)
    (buffer : ByteStore) (size : ℕ) :
    ∃ written next, fat32WriteFile v path buffer size = .ok (written, next) ∧
      Writes deleted d name buffer size written next := by
  unfold fat32WriteFile
  generalize hloop : writeClusters buffer size (size + chainFuel + 1) = loop
  simp only [bind, hparent, hdelete, ok_bind, clustersNeeded_eq h.geometry,
    if_neg (h.directory_ne_zero hd)]
  rcases takeClusters_ok h.geometry hcursor (needed_pos deleted size) with
    ⟨taken, first, last, front, htake, hbuilt⟩ | ⟨next, htake, hframe, hwhy⟩
  · obtain ⟨ended, stored, hend, hwrite, hstores⟩ :=
      hbuilt.stores h.geometry buffer size
    rw [hloop] at hwrite
    obtain ⟨hlength, hneeded⟩ := hbuilt.length_eq
    obtain ⟨hsound, hagrees⟩ := hstores.sound h
    have hplace := hagrees.directory_iff.2 hd
    have hstored : stored.bpb.Has stored.lastFreeCluster := by
      rw [hstores.frame.bpb]
      exact hstores.frame.cursor hcursor
    simp only [htake, ok_bind]
    rw [hend, ok_bind, hwrite, ok_bind]
    rcases createDirEntry_places hsound hplace hstored hname 0x20 first size with
      ⟨next, extra, hcreate, hplaces⟩ | ⟨hvacancy, hfull, hcreate⟩
    · dsimp only
      rw [hcreate, ok_bind]
      exact ⟨_, next, rfl, .stored hstores hlength hneeded hplaces⟩
    · dsimp only
      rw [hcreate, ok_bind]
      exact ⟨_, stored, rfl, .dropped hstores hlength hneeded hvacancy hfull⟩
  · simp only [htake, ok_bind]
    rcases hwhy with ⟨hnone, rfl⟩ | ⟨hsome, hshort⟩
    · exact ⟨0, next, rfl, .full (Volume.card_freeClusters_eq_zero.1 hnone)⟩
    · exact ⟨0, next, rfl, .short hsome hshort hframe⟩

/-! ## A new directory -/

/-- The cluster of a new directory holds the entries `.` and `..` only. -/
theorem slots_dots
    (hgeometry : v.bpb.Geometry) (hcluster : v.bpb.Has cluster)
    {e f : Entry} (he : ∀ k, 32 ≤ k → e k = 0) (hf : ∀ k, 32 ≤ k → f k = 0) :
    ∃ after, (writeCluster v cluster
        ((blit (fun _ => 0) 0 e 32).blit 32 f 32)).row cluster =
          e :: f :: after ∧ ∀ g ∈ after, g = blankEntry := by
  obtain ⟨after, hrow, hblank⟩ := @rowOf_blit v hgeometry 2 (by norm_num)
    ((blit (fun _ => 0) 0 e 32).blit 32 f 32)
    (fun k hk => by
      rw [blit_outside _ _ (by omega), blit_outside _ _ (by omega)])
  have hfirst : entryAt ((blit (fun _ => 0) 0 e 32).blit 32 f 32) 0 = e := by
    have hkeep := @entryAt_blit_of_ne 1 (blit (fun _ => 0) 0 e 32) f 0
      (by norm_num)
    rw [show 32 * 1 = 32 from rfl] at hkeep
    rw [hkeep]
    exact entryAt_blit_same (fun _ => 0) he 0
  have hsecond : entryAt ((blit (fun _ => 0) 0 e 32).blit 32 f 32) 1 = f :=
    entryAt_blit_same (blit (fun _ => 0) 0 e 32) hf 1
  refine ⟨after, ?_, hblank⟩
  rw [row_writeCluster_same hgeometry hcluster, hrow]
  have htwo : rowOf 2 ((blit (fun _ => 0) 0 e 32).blit 32 f 32) = [e, f] := by
    have hrange : List.range 2 = [0, 1] := rfl
    unfold rowOf
    rw [hrange, List.map_cons, List.map_cons, List.map_nil, hfirst, hsecond]
  rw [htwo]
  rfl

theorem empty_of_dots
    {e f : Entry} {after : List Entry} (hchain : v.chain cluster = [cluster])
    (hrow : v.row cluster = e :: f :: after) (he : e.name ∈ dotNames)
    (hf : f.name ∈ dotNames) (hblank : ∀ g ∈ after, g = blankEntry) :
    v.entries cluster = [] ∧ v.Closed cluster := by
  have hused : ∀ {g : Entry}, g.name ∈ dotNames →
      g.isEnd = false ∧ g.isDeleted = false := by
    intro g hg
    have hdots : ∀ n ∈ dotNames, n.head? ≠ some 0 ∧ n.head? ≠ some 0xE5 := by
      decide
    obtain ⟨hend, hgone⟩ := hdots _ hg
    rw [Bool.eq_false_iff, Bool.eq_false_iff, ne_eq, ne_eq, Entry.isEnd_iff,
      Entry.isDeleted_iff]
    exact ⟨hend, hgone⟩
  have hslots : v.slots cluster = e :: f :: after := by
    unfold Volume.slots
    rw [hchain, List.flatMap_singleton, hrow]
  constructor
  · unfold Volume.entries Volume.live
    rw [hslots, liveSlots_cons_of_live (hused he).1 (hused he).2,
      liveSlots_cons_of_live (hused hf).1 (hused hf).2,
      liveSlots_of_blank blankEntry_isEnd hblank,
      List.filter_cons_of_neg (by simpa using he),
      List.filter_cons_of_neg (by simpa using hf)]
    rfl
  · unfold Volume.Closed
    rw [hslots, ClosedBy.cons_of_not_end (hused he).1,
      ClosedBy.cons_of_not_end (hused hf).1]
    exact closedBy_of_blank hblank

theorem takes_one
    (hgeometry : v.bpb.Geometry) (hfree : v.Free cluster)
    {found ended : Volume}
    (hfound : found = { v with lastFreeCluster := v.bpb.turn cluster 1 })
    (hended : Links found ended cluster 0x0FFFFFF8) (bytes : ByteStore) :
    Takes v (writeCluster ended cluster bytes) cluster [cluster] := by
  have hmoved : v.Frame found ∅ ∅ := by
    rw [hfound]
    exact v.frame_cursor (Bpb.turn_has hfree.1 1)
  have hentry := hgeometry.hasEntry hfree.1
  have hlinks : found.Frame ended {cluster} ∅ :=
    Volume.frame_links hended (hmoved.bpb ▸ hgeometry.tables)
      (hmoved.bpb ▸ hentry)
  have hebpb : ended.bpb = v.bpb := hlinks.bpb.trans hmoved.bpb
  have hstore : ended.Frame (writeCluster ended cluster bytes) ∅ {cluster} :=
    Volume.frame_writeCluster (hebpb ▸ hgeometry) (hebpb ▸ hfree.1) bytes
  have hlink : (writeCluster ended cluster bytes).link cluster =
      0x0FFFFFF8 := by
    rw [hstore.link (hebpb ▸ hgeometry.tables) (hebpb ▸ hentry)
        (Set.notMem_empty _),
      hended.link_same (hmoved.bpb ▸ hgeometry.tables)]
  refine ⟨((hmoved.trans hlinks).trans hstore).mono ?_ ?_, ?_,
    ⟨rfl, hfree.1.continues hgeometry, ?_⟩, List.mem_singleton_self _⟩
  · intro x hx
    simpa using hx
  · intro x hx
    simpa using hx
  · intro x hx
    rw [List.mem_singleton.1 hx]
    exact hfree
  · rw [hlink]
    unfold ChainFrom Continues
    norm_num

theorem fat32CreateDirectory_makes
    (hfind : findFile v path = .ok none)
    (hparent : resolveParentDirectory v path = .ok (d, name))
    (h : v.Sound) (hd : v.forest.Directory d)
    (hcursor : v.bpb.Has v.lastFreeCluster) (hname : 0 ∉ name) :
    ∃ made next, fat32CreateDirectory v path = .ok (made, next) ∧
      Makes v d name made next := by
  have hgeometry := h.geometry
  unfold fat32CreateDirectory
  simp only [bind, hfind, hparent, ok_bind, if_neg (h.directory_ne_zero hd)]
  by_cases hfree : ∃ x, v.Free x
  · obtain ⟨cluster, hcluster, hsearch, -⟩ :=
      findFreeCluster_some hgeometry.numbered hcursor hfree
    generalize hfound : ({ v with
      lastFreeCluster := v.bpb.turn cluster 1 } : Volume) = found at hsearch
    have hfbpb : found.bpb = v.bpb := by rw [← hfound]
    have hpos : cluster ≠ 0 := by
      have := hcluster.1.1
      omega
    obtain ⟨ended, hend, hlinks⟩ := @setNextCluster_ok found cluster
      (hfbpb ▸ hgeometry.tables) (hfbpb ▸ hgeometry.hasEntry hcluster.1)
      0x0FFFFFF8
    have hebpb : ended.bpb = v.bpb := hlinks.bpb.trans hfbpb
    obtain ⟨after, hrow, hblank⟩ := @slots_dots ended cluster
      (hebpb ▸ hgeometry) (hebpb ▸ hcluster.1)
      (dotEntry (dot :: List.replicate 10 32) cluster)
      (dotEntry (dot :: dot :: List.replicate 9 32) d)
      (fun _ hk => dotEntry_outside hk) (fun _ hk => dotEntry_outside hk)
    have hbytes := @clusterOf_two ended (hebpb ▸ hgeometry)
      (dotEntry (dot :: List.replicate 10 32) cluster)
      (dotEntry (dot :: dot :: List.replicate 9 32) d)
    generalize hdots : (blit (fun _ => 0) 0
      (dotEntry (dot :: List.replicate 10 32) cluster) 32).blit 32
        (dotEntry (dot :: dot :: List.replicate 9 32) d) 32 = bytes
      at hrow hbytes
    have htakes := takes_one hgeometry hcluster hfound.symm hlinks bytes
    generalize hstored : writeCluster ended cluster bytes = stored
      at htakes hrow
    obtain ⟨hsound, hagrees⟩ := htakes.sound h
    have hplace := hagrees.directory_iff.2 hd
    have hcursor' : stored.bpb.Has stored.lastFreeCluster := by
      rw [htakes.frame.bpb]
      exact htakes.frame.cursor hcursor
    obtain ⟨hempty, hclosed⟩ := empty_of_dots htakes.chain_eq.2 hrow
      (by rw [dotEntry_name rfl]; decide) (by rw [dotEntry_name rfl]; decide)
      hblank
    simp only [hsearch, ok_bind, if_neg hpos]
    rw [hend, ok_bind, hbytes, ok_bind, hstored]
    rcases createDirEntry_places hsound hplace hcursor' hname 0x10 cluster 0 with
      ⟨next, extra, hcreate, hplaces⟩ | ⟨hvacancy, hfull, hcreate⟩
    · rw [hcreate, ok_bind]
      exact ⟨true, next, rfl, .stored htakes hempty hclosed hplaces⟩
    · rw [hcreate, ok_bind]
      exact ⟨true, stored, rfl, .dropped htakes hvacancy hfull⟩
  · rw [not_exists] at hfree
    simp only [findFreeCluster_none hgeometry.numbered hcursor hfree, ok_bind,
      if_true]
    exact ⟨false, v, rfl, .full hfree⟩

/-! ## The volume afterwards -/

theorem Places.inserts
    {extra : List ℕ} (h : Places v next d e extra) : Inserts v next d e extra := by
  cases h with
  | slot _ hinserts => exact hinserts
  | cluster _ hinserts => exact hinserts

theorem Takes.firstCluster_lt
    (h : Takes v w first cs) (hgeometry : v.bpb.Geometry) :
    first < 4294967296 := by
  have hbound := (hgeometry.isCluster (h.free first h.first).1).2
  omega

theorem Takes.admits_file
    (h : Takes v w first cs) (hsound : v.Sound) (hname : 0 ∉ name) :
    w.Admits (newEntry name 0x20 first size) := by
  have hfile : (newEntry name 0x20 first size).isDirectory = false :=
    newEntry_isDirectory (by norm_num)
  refine ⟨?_, newEntry_isEnd hname, ?_,
    newEntry_isLongName (by norm_num) (by decide), ?_, ?_⟩
  · rw [newEntry_firstCluster (h.firstCluster_lt hsound.geometry)]
    exact h.loose hsound
  · rw [newEntry_name]
    exact filenameToFat32_notMem_dotNames name
  · rw [hfile]
    exact fun hinner => absurd hinner Bool.false_ne_true
  · rw [hfile]
    exact fun hinner => absurd hinner Bool.false_ne_true

theorem Takes.admits_directory
    (h : Takes v w first cs) (hsound : v.Sound) (hname : 0 ∉ name)
    (hempty : w.entries first = []) (hclosed : w.Closed first) :
    w.Admits (newEntry name 0x10 first size) := by
  have htarget : (newEntry name 0x10 first size).firstCluster = first :=
    newEntry_firstCluster (h.firstCluster_lt hsound.geometry)
  refine ⟨?_, newEntry_isEnd hname, ?_,
    newEntry_isLongName (by norm_num) (by decide), ?_, ?_⟩
  · rw [htarget]
    exact h.loose hsound
  · rw [newEntry_name]
    exact filenameToFat32_notMem_dotNames name
  · rw [htarget]
    exact fun _ => hempty
  · rw [htarget]
    exact fun _ => hclosed

/-- An entry in its place leaves the volume sound, even where its name makes it a
deleted one. -/
theorem Places.sound
    {extra : List ℕ} (h : Places v next d e extra) (hsound : v.Sound)
    (hd : v.forest.Directory d) (hadmits : v.Admits e) : next.Sound := by
  cases hgone : e.isDeleted with
  | false => exact h.inserts.sound hsound hd hadmits hgone
  | true => exact h.inserts.sound_of_deleted hsound hd hgone hadmits.used

theorem Takes.frame_places
    {extra : List ℕ} (h : Takes v w first cs) (hplaces : Places w next d e extra) :
    v.Frame next Set.univ Set.univ :=
  (h.frame.trans hplaces.inserts.frame).mono (Set.subset_univ _)
    (Set.subset_univ _)

section

variable {written : ℕ} {made : Bool}

theorem Writes.frame (h : Writes v d name buffer size written next) :
    v.Frame next Set.univ Set.univ := by
  cases h with
  | full _ =>
      exact (Volume.Frame.refl v).mono (Set.subset_univ _) (Set.subset_univ _)
  | short _ _ hframe =>
      exact hframe.mono (Set.subset_univ _) (Set.subset_univ _)
  | stored hstores _ _ hplaces => exact hstores.frame_places hplaces
  | dropped hstores _ _ _ _ =>
      exact hstores.frame.mono (Set.subset_univ _) (Set.subset_univ _)

/-- Whatever becomes of the write, the volume stays sound. -/
theorem Writes.sound
    (h : Writes v d name buffer size written next) (hsound : v.Sound)
    (hd : v.forest.Directory d) (hname : 0 ∉ name) : next.Sound := by
  cases h with
  | full _ => exact hsound
  | short _ _ hframe =>
      exact (hsound.frame hframe (fun x hx => hsound.spare_of_free hx)
        fun x hx => absurd hx (Set.notMem_empty x)).1
  | stored hstores _ _ hplaces =>
      obtain ⟨hwsound, hagrees⟩ := hstores.sound hsound
      exact hplaces.sound hwsound (hagrees.directory_iff.2 hd)
        (hstores.admits_file hsound hname)
  | dropped hstores _ _ _ _ => exact (hstores.sound hsound).1

theorem Makes.frame (h : Makes v d name made next) :
    v.Frame next Set.univ Set.univ := by
  cases h with
  | full _ =>
      exact (Volume.Frame.refl v).mono (Set.subset_univ _) (Set.subset_univ _)
  | stored htakes _ _ hplaces => exact htakes.frame_places hplaces
  | dropped htakes _ _ =>
      exact htakes.frame.mono (Set.subset_univ _) (Set.subset_univ _)

theorem Makes.sound
    (h : Makes v d name made next) (hsound : v.Sound)
    (hd : v.forest.Directory d) (hname : 0 ∉ name) : next.Sound := by
  cases h with
  | full _ => exact hsound
  | stored htakes hempty hclosed hplaces =>
      obtain ⟨hwsound, hagrees⟩ := htakes.sound hsound
      exact hplaces.sound hwsound (hagrees.directory_iff.2 hd)
        (htakes.admits_directory hsound hname hempty hclosed)
  | dropped htakes _ _ => exact (htakes.sound hsound).1

end

end

end ClOs.Fat32
