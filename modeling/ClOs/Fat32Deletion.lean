import ClOs.Fat32Freeing
import ClOs.Fat32Volumes

/-!
# Deleting a file or an empty directory

`fat32_delete` walks three times over chains of a sound volume: to look for entries
in a directory, to free the chain of the target, and to mark its entry.  What it
changes is the chain of the target and one slot of the directory that holds it.
-/

namespace ClOs.Fat32

open ByteStore

/-- `next` is `v` without the entry `e` of a directory and without its chain. -/
structure Deletes (v next : Volume) (d : ℕ) (e : Entry) : Prop where
  frame : v.Frame next {x | x ∈ v.chain e.firstCluster} {x | x ∈ v.chain d}
  freed : ∀ copy < v.bpb.fatCount, ∀ x ∈ v.chain e.firstCluster,
    next.fatEntry copy x % 0x10000000 = 0
  closed : next.Closed d
  live : ∃ before after, v.live d = before ++ e :: after ∧
    next.live d = before ++ after

/-- A file, or a directory without an entry besides `.` and `..`. -/
def Volume.Deletable (v : Volume) (e : Entry) : Prop :=
  e.isDirectory = true → v.entries e.firstCluster = []

instance (v : Volume) (e : Entry) : Decidable (v.Deletable e) :=
  inferInstanceAs (Decidable (_ → _))

section

variable {v w next : Volume} {d t x first : ℕ} {e : Entry} {path : CString}
  {names : List CString} {cs : List ℕ}

/-! ## Freeing a chain -/

/-- The freeing loop visits the chain. -/
theorem exists_freeRun_chain
    (hgeometry : v.bpb.Geometry)
    (hchain : ChainFrom v.link Continues first cs)
    (hcs : ∀ x ∈ cs, v.bpb.Has x) : ∃ last, FreeRun v first cs last := by
  induction cs generalizing v first with
  | nil => exact ⟨v, .stop (not_isCluster hchain)⟩
  | cons c rest ih =>
      have hnodup := List.nodup_cons.1 hchain.nodup
      obtain ⟨rfl, -, hrest⟩ := hchain
      have hhas := hcs c List.mem_cons_self
      have hentry := hgeometry.hasEntry hhas
      obtain ⟨freed, hset, hlinks⟩ :=
        setNextCluster_ok hgeometry.tables hentry 0
      have hrestHas : ∀ x ∈ rest, v.bpb.Has x :=
        fun x hx => hcs x (List.mem_cons_of_mem _ hx)
      have hkeep : ∀ x ∈ rest, freed.link x = v.link x := by
        intro x hx
        refine hlinks.link_of_ne hentry (hgeometry.hasEntry (hrestHas x hx)).1 ?_
        rintro rfl
        exact hnodup.1 hx
      obtain ⟨last, hrun⟩ := @ih freed (v.link c)
        (hlinks.bpb ▸ hgeometry) (hrest.congr hkeep)
        (hlinks.bpb ▸ hrestHas)
      exact ⟨last, .step (hgeometry.isCluster hhas)
        (getNextCluster_eq hgeometry.tables hentry) hset hrun⟩

theorem length_lt_chainFuel
    (hgeometry : v.bpb.Geometry) (hends : v.Ends first) :
    (v.chain first).length < 2 * chainFuel := by
  have hlength := Volume.length_le_clusters hends.chain hends.cluster
  have hclusters := hgeometry.clusters_le
  unfold chainFuel
  omega

theorem freeChain_ok
    (hgeometry : v.bpb.Geometry) (hends : v.Ends first) :
    ∃ last, freeChain (2 * chainFuel) first v = .ok last ∧
      v.Frame last {x | x ∈ v.chain first} ∅ ∧
      ∀ copy < v.bpb.fatCount, ∀ x ∈ v.chain first,
        last.fatEntry copy x % 0x10000000 = 0 := by
  obtain ⟨last, hrun⟩ :=
    exists_freeRun_chain hgeometry hends.chain hends.cluster
  have hfree := hrun.freeChain (length_lt_chainFuel hgeometry hends)
  have hentries : ∀ x ∈ v.chain first, v.bpb.HasEntry x :=
    fun x hx => hgeometry.hasEntry (hends.cluster x hx)
  exact ⟨last, hfree, hrun.frame hgeometry.tables hentries⟩

/-! ## The name of the target -/

theorem Volume.Sound.mem_lookups
    {found : ℕ × CString} (h : v.Sound) (hd : v.forest.Directory d)
    (hmem : found ∈ lookups (findToken v) enterEntry d names) :
    ∃ front post, names.map filenameToFat32 = front ++ post ∧ post ≠ [] ∧
      v.forest.enter d front = some found.1 := by
  induction names generalizing d with
  | nil => cases hmem
  | cons name rest ih =>
      rw [lookups, h.findToken_eq hd] at hmem
      rcases List.mem_cons.1 hmem with rfl | hmem
      · exact ⟨[], _, (List.nil_append _).symm, List.cons_ne_nil _ _, rfl⟩
      cases hfind : v.forest.find d (filenameToFat32 name) with
      | none =>
          rw [hfind] at hmem
          cases hmem
      | some e =>
          rw [hfind] at hmem
          simp only [enterEntry] at hmem
          by_cases hinner : e.isDirectory = true
          · simp only [hinner, if_true] at hmem
            obtain ⟨front, post, hsplit, hpost, henter⟩ :=
              ih (.child hd (Forest.find_eq_some hfind).1 hinner) hmem
            have hstep : v.forest.inner e = true := hinner
            refine ⟨filenameToFat32 name :: front, post, ?_, hpost, ?_⟩
            · rw [List.map_cons, hsplit, List.cons_append]
            · rw [Forest.enter, hfind, Option.bind_some, if_pos hstep]
              exact henter
          · simp only [hinner] at hmem
            cases hmem

theorem walkNames_avoid
    (h : v.Sound)
    (hsame : ∀ x, v.forest.Directory x → x ≠ t → ∀ token,
      findToken w x token = findToken v x token)
    (hd : v.forest.Directory d)
    (havoid : ∀ front post, names.map filenameToFat32 = front ++ post →
      post ≠ [] → v.forest.enter d front ≠ some t) :
    walkNames (findToken w) enterEntry d names =
      walkNames (findToken v) enterEntry d names := by
  refine walkNames_congr (fun found hfound => ?_) fun _ _ _ _ => rfl
  obtain ⟨front, post, hsplit, hpost, henter⟩ := h.mem_lookups hd hfound
  refine hsame found.1 (Forest.directory_of_enter hd henter) ?_ found.2
  rintro rfl
  exact havoid front post hsplit hpost henter

theorem findFile_congr
    {other : CString} (hroot : w.rootCluster = v.rootCluster)
    (hwalk : walkNames (findToken w) enterEntry v.rootCluster
        (components other) =
      walkNames (findToken v) enterEntry v.rootCluster (components other))
    (hlength : (dropSlash other).length < 256) :
    findFile w other = findFile v other := by
  rw [findFile_eq_lookupPath hlength, findFile_eq_lookupPath hlength]
  unfold lookupPath
  rw [hroot, hwalk]

/-- The parent of a path is found as before when the directories on the way to it
are as before. -/
theorem resolveParentDirectory_avoid
    (h : v.Sound) (hroot : w.rootCluster = v.rootCluster)
    (hsame : ∀ x, v.forest.Directory x → x ≠ t → ∀ token,
      findToken w x token = findToken v x token)
    (hlength : (dropSlash path).length < 256) (hname : fileName path ≠ [])
    (havoid : ∀ front post, parentNames path = front ++ post → post ≠ [] →
      v.forest.enter v.rootCluster front ≠ some t) :
    resolveParentDirectory w path = resolveParentDirectory v path := by
  have hcopy := copyPath_eq_ok.2 ⟨hlength, rfl⟩
  unfold resolveParentDirectory
  simp only [hcopy, bind, Except.bind]
  rcases components_fileName hname with ⟨hcut, -⟩ | ⟨i, hcut, -, hnames⟩
  · rw [hcut]
    simp only [hroot]
  · have hshort := (length_parent_le path i).trans_lt hlength
    have hparent : parentNames path = (components
        ((stripSlash (dropSlash path)).take i)).map filenameToFat32 := by
      unfold parentNames shortNames
      rw [hnames, List.map_append, List.map_singleton, List.dropLast_concat]
    have hwalk := @walkNames_avoid v w v.rootCluster t
      (components ((stripSlash (dropSlash path)).take i)) h hsame
      v.directory_root (hparent ▸ havoid)
    rw [hcut]
    simp only [findFile_congr hroot hwalk hshort]

/-! ## The tree without the target -/

/-- A name that is found is found among the live slots. -/
theorem find?_live
    {n : List UInt8} (hfind : v.forest.find d n = some e) (hn : n ∉ dotNames) :
    (v.live d).find? (fun f => decide (f.name = n)) = some e := by
  unfold Forest.find at hfind
  rw [forest_items] at hfind
  unfold Volume.entries at hfind
  rw [List.find?_filter] at hfind
  rw [← hfind]
  refine List.find?_congr fun f _ => ?_
  by_cases hname : f.name = n
  · simp [hname, hn]
  · simp [hname]

section

variable (h : v.Sound) (hd : v.forest.Directory d) (he : e ∈ v.entries d)
  (hempty : e.isDirectory = true → v.entries e.firstCluster = [])

include h hd he hempty

/-- The target is not the directory that holds it. -/
theorem Volume.Sound.target_ne : e.firstCluster ≠ d := by
  intro hsame
  cases hd with
  | root => exact h.tree.root .root he hsame
  | @child d' f hd' hf hinner =>
      have hplace := h.tree.apart (.child hd' hf hinner) hd' he hf hsame
      have hmem : e ∈ v.forest.items d' := hplace ▸ he
      have hitem := h.tree.item_eq hd' hmem hf hsame
      subst hitem
      have hnone := hempty hinner
      rw [hsame] at hnone
      rw [hnone] at he
      cases he

theorem Deletes.removes (hdel : Deletes v next d e) :
    v.forest.Removes next.forest d e := by
  have hdot : (fun f : Entry => decide (f.name ∉ dotNames)) e = true :=
    (List.mem_filter.1 he).2
  have howned := Forest.owned_of_mem hd he
  refine ⟨hd, ?_, rfl, rfl, rfl, ?_, ?_, hempty⟩
  · unfold Volume.forest Volume.rootCluster
    rw [hdel.frame.bpb]
  · obtain ⟨before, after, hold, hnew⟩ := hdel.live
    refine ⟨before.filter (fun f => decide (f.name ∉ dotNames)),
      after.filter (fun f => decide (f.name ∉ dotNames)), ?_, ?_⟩
    · rw [forest_items]
      unfold Volume.entries
      rw [hold, List.filter_append]
      congr 1
      exact List.filter_cons_of_pos hdot
    · rw [forest_items]
      unfold Volume.entries
      rw [hnew, List.filter_append]
  · intro x hx hne hother
    have htarget : x ≠ e.firstCluster := by
      rintro rfl
      exact hother ⟨h.tree.inner_of_directory hd he hx, rfl⟩
    have hslots := hdel.frame.slots h.geometry (h.ends x hx.owned)
      (fun y hy hmem => h.disjoint x _ hx.owned howned htarget hy hmem)
      (fun y hy hmem => h.disjoint x d hx.owned hd.owned hne hy hmem)
    rw [forest_items, forest_items]
    unfold Volume.entries Volume.live
    rw [hslots]

theorem Deletes.sound (hdel : Deletes v next d e) : next.Sound := by
  have hadds := (hdel.removes h hd he hempty).adds h.tree
  have hold : ∀ {x}, next.forest.Owned x → v.forest.Owned x ∧
      x ≠ e.firstCluster := by
    intro x hx
    refine ⟨hadds.owned_iff.2 (.inl hx), ?_⟩
    rintro rfl
    exact hadds.fresh hx
  have howned := Forest.owned_of_mem hd he
  have hchain : ∀ {x}, next.forest.Owned x →
      next.Ends x ∧ next.chain x = v.chain x := by
    intro x hx
    obtain ⟨hmem, hne⟩ := hold hx
    exact (h.ends x hmem).frame hdel.frame h.geometry
      fun y hy hfreed => h.disjoint x _ hmem howned hne hy hfreed
  refine ⟨hdel.frame.geometry h.geometry, hadds.tree_of_large h.tree,
    fun x hx => (hchain hx).1, ?_, ?_, ?_⟩
  · intro x y hx hy hne
    rw [(hchain hx).2, (hchain hy).2]
    exact h.disjoint x y (hold hx).1 (hold hy).1 hne
  · intro x hx f hf
    exact h.plain x (hadds.directory_iff.2 (.inl hx)) f
      ((hadds.mem_items hx).2 (.inl hf))
  · intro x hx
    by_cases hsame : x = d
    · rw [hsame]
      exact hdel.closed
    · have hxowned := hold hx.owned
      have hxd := hadds.directory_iff.2 (.inl hx)
      have hslots := hdel.frame.slots h.geometry (h.ends x hxowned.1)
        (fun y hy hmem => h.disjoint x _ hxowned.1 howned hxowned.2 hy hmem)
        (fun y hy hmem => h.disjoint x d hxowned.1 hd.owned hsame hy hmem)
      unfold Volume.Closed
      rw [hslots]
      exact h.closed x hxd

theorem exists_deletes
    (hroot : v.forest.enter v.rootCluster (parentNames path) = some d)
    (hfind : v.forest.find d (filenameToFat32 (fileName path)) = some e)
    (hlength : (dropSlash path).length < 256) (hname : fileName path ≠ []) :
    ∃ freed parent next,
      freeChain (2 * chainFuel) e.firstCluster v = .ok freed ∧
      resolveParentDirectory freed path = .ok (parent, fileName path) ∧
      removeEntry freed d (filenameToFat32 (fileName path)) = .ok next ∧
      Deletes v next d e := by
  have howned := Forest.owned_of_mem hd he
  have hne := h.target_ne hd he hempty
  obtain ⟨freed, hfree, hframe, hclear⟩ :=
    freeChain_ok h.geometry (h.ends _ howned)
  have hdapart : ∀ x ∈ v.chain d, x ∉ v.chain e.firstCluster :=
    fun x hx hmem => h.disjoint d _ hd.owned howned hne.symm hx hmem
  have hbytes : ∀ x ∈ v.chain d, x ∉ (∅ : Set ℕ) :=
    fun _ _ => Set.notMem_empty _
  obtain ⟨hends, hchain⟩ := (h.ends d hd.owned).frame hframe h.geometry hdapart
  have hslots := hframe.slots h.geometry (h.ends d hd.owned) hdapart hbytes
  have hclosed : freed.Closed d := by
    unfold Volume.Closed
    rw [hslots]
    exact h.closed d hd
  have hlive : freed.live d = v.live d := by
    unfold Volume.live
    rw [hslots]
  have hfound := find?_live hfind (filenameToFat32_notMem_dotNames _)
  rw [← hlive] at hfound
  obtain ⟨next, hremove, herases⟩ :=
    removeEntry_ok (hframe.geometry h.geometry) hends hclosed hfound
  have hsame : ∀ x, v.forest.Directory x → x ≠ e.firstCluster → ∀ token,
      findToken freed x token = findToken v x token := by
    intro x hx hxne token
    have hapart : ∀ y ∈ v.chain x, y ∉ v.chain e.firstCluster :=
      fun y hy hmem => h.disjoint x _ hx.owned howned hxne hy hmem
    have hxslots := hframe.slots h.geometry (h.ends x hx.owned) hapart
      (fun _ _ => Set.notMem_empty _)
    obtain ⟨hxends, -⟩ := (h.ends x hx.owned).frame hframe h.geometry hapart
    unfold findToken
    rw [findEntryInCluster_eq (hframe.geometry h.geometry) hxends,
      findEntryInCluster_eq h.geometry (h.ends x hx.owned)]
    unfold Volume.live
    rw [hxslots]
  have havoid : ∀ front post, parentNames path = front ++ post → post ≠ [] →
      v.forest.enter v.rootCluster front ≠ some e.firstCluster := by
    intro front post hsplit hpost henter
    have hinner := h.tree.inner_of_directory hd he
      (Forest.directory_of_enter v.directory_root henter)
    rw [hsplit, Forest.enter_append, henter, Option.bind_some] at hroot
    cases post with
    | nil => exact hpost rfl
    | cons n rest =>
        have hnone : v.forest.find e.firstCluster n = none := by
          rw [Forest.find_eq_none, forest_items, hempty hinner]
          simp
        rw [Forest.enter, hnone] at hroot
        cases hroot
  have hparent := resolveParentDirectory_avoid h
    (by unfold Volume.rootCluster; rw [hframe.bpb]) hsame hlength hname havoid
  rw [h.resolveParentDirectory_eq hlength hname] at hparent
  refine ⟨freed, _, next, hfree, hparent, hremove, ?_, ?_, herases.closed, ?_⟩
  · refine (hframe.trans herases.frame).mono (by simp) ?_
    rw [hchain]
    simp
  · intro copy hcopy x hx
    rw [herases.frame.fatEntry copy (hframe.bpb ▸ hcopy) x
      (hframe.bpb ▸ (h.geometry.hasEntry ((h.ends _ howned).cluster x hx)).1)
      (Set.notMem_empty _)]
    exact hclear copy hcopy x hx
  · rw [← hlive]
    exact herases.live

end

/-! ## `fat32_delete` -/

/-- The test of `fat32_delete` on an entry of the tree. -/
theorem isOccupied_eq
    (h : v.Sound) (hd : v.forest.Directory d) (he : e ∈ v.entries d) :
    isOccupied v e = .ok (decide ¬v.Deletable e) := by
  unfold isOccupied Volume.Deletable
  by_cases hinner : e.isDirectory = true
  · have hplace : v.forest.Directory e.firstCluster := .child hd he hinner
    rw [if_pos hinner, hasEntries_eq h.geometry (h.ends _ hplace.owned)
      (h.closed _ hplace)]
    simp [hinner]
  · rw [if_neg hinner]
    simp [hinner, pure, Except.pure]

theorem fat32Delete_none (hfind : findFile v path = .ok none) :
    fat32Delete v path = .ok (false, v) := by
  unfold fat32Delete
  rw [hfind]
  rfl

theorem fat32Delete_occupied
    (h : v.Sound) (hd : v.forest.Directory d) (he : e ∈ v.entries d)
    (hfind : findFile v path = .ok (some (e, d))) (hkeep : ¬v.Deletable e) :
    fat32Delete v path = .ok (false, v) := by
  unfold fat32Delete
  simp only [hfind, isOccupied_eq h hd he, bind, Except.bind]
  simp [hkeep, pure, Except.pure]

theorem fat32Delete_deletes
    (h : v.Sound) (hlength : (dropSlash path).length < 256)
    (hname : fileName path ≠ []) (hlookup : v.lookup path = some (e, d))
    (hempty : v.Deletable e) :
    ∃ next, fat32Delete v path = .ok (true, next) ∧ Deletes v next d e := by
  obtain ⟨hroot, hfind⟩ := (Volume.lookup_eq_some hname).1 hlookup
  have hd := Forest.directory_of_enter v.directory_root hroot
  have he := (Forest.find_eq_some hfind).1
  obtain ⟨freed, parent, next, hfree, hparent, hremove, hdeletes⟩ :=
    exists_deletes h hd he hempty hroot hfind hlength hname
  refine ⟨next, ?_, hdeletes⟩
  unfold fat32Delete
  simp only [h.findFile_eq hlength, hlookup, isOccupied_eq h hd he, bind,
    Except.bind]
  simp only [hempty, not_true_eq_false, decide_false, hfree, hparent, hremove]
  rfl

/-! ## What is left -/

section

variable (h : v.WellFormed) (hd : v.forest.Directory d) (he : e ∈ v.entries d)
  (hempty : v.Deletable e) (hdel : Deletes v next d e)

include h hd he hempty hdel

theorem Deletes.adds : next.forest.Adds v.forest d e :=
  (hdel.removes h.toSound hd he hempty).adds h.tree

theorem Deletes.wellFormed : next.WellFormed :=
  ⟨hdel.sound h.toSound hd he hempty,
    (hdel.adds h hd he hempty).unique_of_large h.unique⟩

/-- A path that does not pass through the target is followed as before. -/
theorem Deletes.lookup_eq
    {other : CString} {front : List (List UInt8)}
    (hfront : v.forest.enter v.rootCluster front = some d)
    (hpast : ¬(front ++ [e.name]) <+: shortNames other) :
    next.lookup other = v.lookup other := by
  have hadds := hdel.adds h hd he hempty
  have hroot : next.rootCluster = v.rootCluster := hadds.root.symm
  refine Volume.lookup_eq_of_follow hroot ?_
  exact (hadds.follow_eq h.tree h.unique hfront hpast).symm

/-- The way to the directory of the target stays. -/
theorem Deletes.enter_front
    {front : List (List UInt8)}
    (hfront : v.forest.enter v.rootCluster front = some d) :
    next.forest.enter next.rootCluster front = some d := by
  have hadds := hdel.adds h hd he hempty
  have hroot : next.rootCluster = v.rootCluster := hadds.root.symm
  have hshort : ¬(front ++ [e.name]) <+: [] ++ front := by
    intro hstart
    have hlength := hstart.length_le
    simp at hlength
  have hstart : v.forest.enter v.forest.root [] = some v.forest.root := rfl
  rw [hroot]
  exact (hadds.enter_eq h.tree h.unique hfront hstart hshort).symm.trans hfront

theorem Deletes.follow_target
    {front : List (List UInt8)}
    (hfront : v.forest.enter v.rootCluster front = some d) :
    next.forest.follow next.rootCluster (front ++ [e.name]) = none :=
  (hdel.adds h hd he hempty).follow_small h.unique
    (hdel.enter_front h hd he hempty hfront)

theorem Deletes.keeps
    {other : CString} (hfound : findFile next other = findFile v other) :
    Keeps v next other := by
  have hadds := hdel.adds h hd he hempty
  have hsound := hdel.sound h.toSound hd he hempty
  refine h.toSound.keeps hdel.frame hfound fun f y hfind hfile x hx => ?_
  obtain ⟨hy, hf⟩ := h.toSound.mem_of_findFile hfind hfile
  obtain ⟨hynext, hfnext⟩ :=
    hsound.mem_of_findFile (hfound.trans hfind) hfile
  have howned := Forest.owned_of_mem hy hf
  have htarget : f.firstCluster ≠ e.firstCluster := by
    intro hsame
    refine hadds.fresh ?_
    have hnew := Forest.owned_of_mem hynext hfnext
    rwa [forest_target, hsame] at hnew
  have hplace : f.firstCluster ≠ d := by
    rintro rfl
    have hinner := h.tree.inner_of_directory hy hf hd
    rw [forest_inner, hfile] at hinner
    cases hinner
  exact ⟨fun hmem => h.disjoint _ _ howned (Forest.owned_of_mem hd he)
      htarget hx hmem,
    fun hmem => h.disjoint _ d howned hd.owned hplace hx hmem⟩

end

/-- Deleting a path that is missing or leads to an occupied directory changes
nothing.  Otherwise the clusters of the target become free in every copy of the
table, and everything that is not in the target is found as before. -/
theorem fat32Delete_exact
    (h : v.WellFormed) (hpath : Canonical path) (hroot : components path ≠ []) :
    (findFile v path = .ok none ∧ fat32Delete v path = .ok (false, v)) ∨
    ∃ e d, findFile v path = .ok (some (e, d)) ∧
      (¬v.Deletable e → fat32Delete v path = .ok (false, v)) ∧
      (v.Deletable e → ∃ next, fat32Delete v path = .ok (true, next) ∧
        findFile next path = .ok none ∧
        (∀ copy < v.bpb.fatCount, ∀ x < 128 * v.bpb.sectorsPerFat,
          (x ∈ v.chain e.firstCluster → v.link x ≠ 0 ∧
            next.fatEntry copy x % 0x10000000 = 0) ∧
          (x ∉ v.chain e.firstCluster →
            next.fatEntry copy x = v.fatEntry copy x)) ∧
        (∀ other, ¬shortNames path <+: shortNames other →
          Keeps v next other) ∧
        (∀ x, v.forest.Directory x → x ≠ d → x ≠ e.firstCluster →
          next.entries x = v.entries x) ∧
        (∃ front rest, v.entries d = front ++ e :: rest ∧
          next.entries d = front ++ rest) ∧
        next.WellFormed) := by
  have hlength : (dropSlash path).length < 256 :=
    (length_dropSlash_le path).trans_lt hpath.length
  have hname : fileName path ≠ [] :=
    fun hnil => hpath.back ((fileName_eq_nil_iff hroot).1 hnil)
  cases hlookup : v.lookup path with
  | none =>
      have hfind : findFile v path = .ok none := by
        rw [h.findFile_eq hlength, hlookup]
      exact .inl ⟨hfind, fat32Delete_none hfind⟩
  | some found =>
      obtain ⟨e, d⟩ := found
      obtain ⟨hfront, hentry⟩ := (Volume.lookup_eq_some hname).1 hlookup
      have hd := Forest.directory_of_enter v.directory_root hfront
      obtain ⟨he, hsame⟩ := Forest.find_eq_some hentry
      have hnames : shortNames path = parentNames path ++ [e.name] := by
        rw [shortNames_eq hname, ← hsame]
        rfl
      have hfind : findFile v path = .ok (some (e, d)) := by
        rw [h.findFile_eq hlength, hlookup]
      refine .inr ⟨e, d, hfind,
        fat32Delete_occupied h.toSound hd he hfind, fun hempty => ?_⟩
      obtain ⟨next, hdelete, hdel⟩ :=
        fat32Delete_deletes h.toSound hlength hname hlookup hempty
      have hwell := hdel.wellFormed h hd he hempty
      have hremoves := hdel.removes h.toSound hd he hempty
      have hends := h.ends _ (Forest.owned_of_mem hd he)
      refine ⟨next, hdelete, ?_, ?_, ?_, ?_, hremoves.items, hwell⟩
      · have hgone := hdel.follow_target h hd he hempty hfront
        rw [hwell.findFile_eq hlength]
        unfold Volume.lookup
        rw [if_neg hroot, hnames, hgone]
        rfl
      · exact fun copy hcopy x hx => ⟨fun hmem =>
            ⟨hends.link_ne_zero hmem, hdel.freed copy hcopy x hmem⟩,
          hdel.frame.fatEntry copy hcopy x hx⟩
      · intro other hpast
        rw [hnames] at hpast
        exact hdel.keeps h hd he hempty (h.findFile_congr hwell.toSound
          (hdel.lookup_eq h hd he hempty hfront hpast))
      · exact fun x hx hne htarget =>
          hremoves.others x hx hne fun hboth => htarget hboth.2

/-- A volume with the file `A` of one byte in its root directory. -/
def oneFile : Volume where
  bpb := ofWords [(12, 0x00010102), (16, 1), (32, 6), (36, 1), (44, 2)]
  disk := ofWords [(520, 0x0FFFFFF8), (524, 0x0FFFFFF8), (1024, 0x20202041),
    (1028, 0x20202020), (1032, 0x20202020), (1048, 0x00030000), (1052, 1),
    (1536, 0x5A)]
  lastFreeCluster := 2
  garbage _ := 0

theorem oneFile_listed : oneFile.Listed [2] := by decide +kernel

/-- The file of that volume is deleted. -/
theorem fat32Delete_exact_oneFile :
    ∃ e d next, findFile oneFile [65] = .ok (some (e, d)) ∧
      fat32Delete oneFile [65] = .ok (true, next) ∧
      findFile next [65] = .ok none ∧ next.WellFormed := by
  have hfile : (findFile oneFile [65]).satisfies
      (fun found => found.any fun f => !f.1.isDirectory) = true := by
    decide +kernel
  have hcanonical : Canonical [65] :=
    ⟨by decide, by decide, by decide, by decide⟩
  rcases fat32Delete_exact oneFile_listed.wellFormed hcanonical (by decide) with
    ⟨hnone, -⟩ | ⟨e, d, hfind, -, hdelete⟩
  · rw [hnone] at hfile
    cases hfile
  · rw [hfind] at hfile
    have hempty : oneFile.Deletable e := by
      intro hinner
      simp [Outcome.satisfies, hinner] at hfile
    obtain ⟨next, hnext, hgone, -, -, -, -, hwell⟩ := hdelete hempty
    exact ⟨e, d, next, hfind, hnext, hgone, hwell⟩

end

/-! ## A volume beyond the reach of the drive -/

/-- The tables of a volume with clusters beyond sector 2^28 and the clusters of its
files.  The root holds the file `A` in cluster 3 and the directory `D`, whose cluster
has the number of that of `A` plus 2^27 and the same bytes: an entry for the file `X`
in cluster 4. -/
def wideWords : List (ℕ × ℕ) :=
  [(520, 0x0FFFFFF8), (524, 0x0FFFFFF8), (528, 0x0FFFFFF8),
    (536871436, 0x0FFFFFF8),
    (536871936, 0x20202041), (536871940, 0x20202020), (536871944, 0x20202020),
    (536871960, 0x00030000), (536871964, 32),
    (536871968, 0x20202044), (536871972, 0x20202020), (536871976, 0x10202020),
    (536871988, 0x00000800), (536871992, 0x00030000),
    (536872960, 0x20202058), (536872964, 0x20202020), (536872968, 0x20202020),
    (536872984, 0x00040000), (536872988, 1),
    (536873984, 0x5A),
    (137975826432, 0x20202058), (137975826436, 0x20202020),
    (137975826440, 0x20202020), (137975826456, 0x00040000), (137975826460, 1)]

/-- That volume.  The search for free clusters starts behind the cluster of `D`. -/
def wide : Volume where
  bpb := ofWords [(12, 0x00010202), (16, 1), (32, 269484054), (36, 1048577), (44, 2)]
  disk := ofWords wideWords
  lastFreeCluster := 134217732
  garbage _ := 0

theorem wide_values :
    wide.bpb.Covers ∧ wide.Arranged [2, 134217731] ∧ wide.rootCluster = 2 := by
  decide +kernel

theorem wide_laid : wide.Laid := wide_values.2.1.laid wide_values.1

/-- A file that reads differently is not kept. -/
theorem not_keeps_of_read
    {v w : Volume} {path : CString} {buffer : ByteStore} {k : ℕ} {old new : UInt8}
    (hfile : (findFile v path).satisfies
      (fun found => found.any fun f => !f.1.isDirectory) = true)
    (hold : (fat32ReadFile v path buffer).satisfies
      (fun r => decide (r.2 k = old)) = true)
    (hnew : (fat32ReadFile w path buffer).satisfies
      (fun r => decide (r.2 k = new)) = true) (hne : old ≠ new) :
    ¬Keeps v w path := by
  intro hkeeps
  obtain ⟨found, hfind, hany⟩ := Outcome.exists_of_satisfies hfile
  obtain _ | ⟨e, d⟩ := found
  · cases hany
  rw [hkeeps.read e d hfind (by simpa using hany) buffer] at hnew
  obtain ⟨r, hread, hbyte⟩ := Outcome.exists_of_satisfies hold
  obtain ⟨r', hread', hbyte'⟩ := Outcome.exists_of_satisfies hnew
  rw [hread, Except.ok.injEq] at hread'
  subst hread'
  exact hne ((of_decide_eq_true hbyte).symm.trans (of_decide_eq_true hbyte'))

/-- Deleting `D/X` there returns, and the bytes of the file `A` have changed. -/
theorem fat32Delete_overwrites :
    wide.Laid ∧ Canonical [68, 47, 88] ∧ components [68, 47, 88] ≠ [] ∧
      ¬shortNames [68, 47, 88] <+: shortNames [65] ∧
      ∃ next, fat32Delete wide [68, 47, 88] = .ok (true, next) ∧
        ¬Keeps wide next [65] := by
  refine ⟨wide_laid, ⟨by decide, by decide, by decide, by decide⟩, by decide,
    by decide, ?_⟩
  have hrun : (fat32Delete wide [68, 47, 88]).satisfies (fun r => r.1 &&
      (fat32ReadFile r.2 [65] (fun _ => 0)).satisfies
        (fun b => decide (b.2 0 = 0xE5))) = true := by
    decide +kernel
  obtain ⟨⟨done, next⟩, hdelete, hresult⟩ := Outcome.exists_of_satisfies hrun
  obtain ⟨rfl, hnew⟩ := Bool.and_eq_true_iff.1 hresult
  exact ⟨next, hdelete, not_keeps_of_read (by decide +kernel)
    (show (fat32ReadFile wide [65] (fun _ => 0)).satisfies
      (fun b => decide (b.2 0 = 0x58)) = true by decide +kernel) hnew (by decide)⟩

end ClOs.Fat32
