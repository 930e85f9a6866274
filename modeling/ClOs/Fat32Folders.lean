import ClOs.Fat32Sizes

/-!
# Creating and deleting again

A file or directory that is created where nothing was is found under its path, and
deleting it leads every path back to where it led before.  Only a cluster that its
directory has grown by stays with the directory.
-/

namespace ClOs.Fat32

/-- A chain of free clusters and a live entry for it in a directory, which has got
the clusters in `extra`. -/
structure Creates (v next : Volume) (d : ℕ) (e : Entry) (extra : List ℕ) :
    Prop where
  kept : e.isDeleted = false
  taken : ∃ w cs, Takes v w e.firstCluster cs ∧ w.Admits e ∧
    Places w next d e extra

section

variable {v w next last : Volume} {d x : ℕ} {e : Entry}
  {path other : CString} {extra : List ℕ} {front : List (List UInt8)}

/-! ## Clusters -/

/-- A directory that has grown has taken free clusters. -/
theorem Inserts.free_iff
    (h : Inserts v next d e extra) (hsound : v.Sound)
    (hd : v.forest.Directory d) :
    next.Free x ↔ v.Free x ∧ x ∉ extra := by
  have hends := hsound.ends d hd.owned
  unfold Volume.Free
  rw [h.frame.bpb]
  constructor
  · rintro ⟨hx, hzero⟩
    have hmem : x ∉ v.chain d ++ extra := by
      intro hmem
      rw [← h.chain] at hmem
      exact h.ends.link_ne_zero hmem hzero
    refine ⟨⟨hx, ?_⟩, fun hextra => hmem (List.mem_append_right _ hextra)⟩
    rw [← h.frame.link hsound.geometry.tables
      (hsound.geometry.hasEntry hx) hmem]
    exact hzero
  · rintro ⟨⟨hx, hzero⟩, hextra⟩
    have hmem : x ∉ v.chain d ++ extra := by
      intro hmem
      rcases List.mem_append.1 hmem with hmem | hmem
      · exact hends.link_ne_zero hmem hzero
      · exact hextra hmem
    refine ⟨hx, ?_⟩
    rw [h.frame.link hsound.geometry.tables
      (hsound.geometry.hasEntry hx) hmem]
    exact hzero

theorem Places.length_le (h : Places v next d e extra) : extra.length ≤ 1 := by
  cases h with
  | slot _ _ => exact Nat.zero_le 1
  | cluster _ _ => exact Nat.le_refl 1

/-! ## What is created -/

section

variable (h : Creates v next d e extra) (hwell : v.WellFormed)
  (hfront : v.forest.enter v.rootCluster front = some d)
  (hnew : v.forest.find d e.name = none)

include h hwell hfront hnew

theorem Creates.enters :
    next.WellFormed ∧
      next.forest.enter next.rootCluster front = some d ∧
      next.forest.find d e.name = some e ∧
      ∀ other, ¬(front ++ [e.name]) <+: shortNames other →
        Keeps v next other := by
  obtain ⟨w, cs, htakes, hadmits, hplaces⟩ := h.taken
  exact htakes.enters hwell hfront hnew hadmits h.kept hplaces.inserts

omit hnew in
/-- A new directory is empty. -/
theorem Creates.deletable : next.Deletable e := by
  obtain ⟨w, cs, htakes, hadmits, hplaces⟩ := h.taken
  obtain ⟨hsound, hagrees⟩ := htakes.sound hwell.toSound
  have hd := Forest.directory_of_enter v.directory_root hfront
  have hadds := hplaces.inserts.adds hsound (hagrees.directory_iff.2 hd)
    hadmits h.kept
  exact fun hinner => hadds.empty hinner

/-- Deleting what was created gives its clusters back. -/
theorem Creates.free_iff
    (hdel : Deletes next last d e) :
    last.Free x ↔ v.Free x ∧ x ∉ extra := by
  obtain ⟨hnext, henter, hfind, -⟩ := h.enters hwell hfront hnew
  obtain ⟨w, cs, htakes, hadmits, hplaces⟩ := h.taken
  have hinserts := hplaces.inserts
  obtain ⟨hsound, hagrees⟩ := htakes.sound hwell.toSound
  have hd := Forest.directory_of_enter v.directory_root hfront
  have hwd := hagrees.directory_iff.2 hd
  have hnd := Forest.directory_of_enter next.directory_root henter
  have hne : e.firstCluster ≠ d := by
    intro hsame
    exact hadmits.loose.not_owned hsound (hsame ▸ hwd.owned)
  have hchain : next.chain e.firstCluster = cs :=
    (hinserts.chain_of hsound hwd (.inr hadmits.loose) hne).trans
      htakes.chain_eq.2
  rw [hdel.free_iff hnext.toSound hnd (Forest.find_eq_some hfind).1, hchain,
    hinserts.free_iff hsound hwd, htakes.free_iff hwell.geometry]
  constructor
  · rintro (⟨⟨hfree, -⟩, hextra⟩ | hmem)
    · exact ⟨hfree, hextra⟩
    · refine ⟨htakes.free x hmem, fun hextra => ?_⟩
      exact ((htakes.free_iff hwell.geometry).1
        (hinserts.free x hextra)).2 hmem
  · rintro ⟨hfree, hextra⟩
    by_cases hmem : x ∈ cs
    · exact .inr hmem
    · exact .inl ⟨⟨hfree, hmem⟩, hextra⟩

/-- Every path leads to where it led before. -/
theorem Creates.undone
    (hdel : Deletes next last d e)
    (hnames : shortNames path = front ++ [e.name]) (other : CString) :
    Keeps v last other := by
  obtain ⟨hnext, henter, hfind, hkeeps⟩ := h.enters hwell hfront hnew
  have hdeletable := h.deletable hwell hfront
  have hnd := Forest.directory_of_enter next.directory_root henter
  have he := (Forest.find_eq_some hfind).1
  have hlast := hdel.wellFormed hnext hnd he hdeletable
  by_cases hpast : (front ++ [e.name]) <+: shortNames other
  · have hgone : ∀ {u : Volume},
        u.forest.follow u.rootCluster (front ++ [e.name]) = none →
          u.lookup other = none := by
      intro u hnone
      have hpath : components path ≠ [] := by
        intro hnil
        rw [shortNames_eq_nil_iff.2 hnil] at hnames
        simp at hnames
      have hlookup : u.lookup path = none := by
        unfold Volume.lookup
        rw [if_neg hpath, hnames, hnone]
        rfl
      by_cases hsame : shortNames other = shortNames path
      · have hother : components other ≠ [] := by
          intro hnil
          rw [shortNames_eq_nil_iff.2 hnil, hnames] at hsame
          simp at hsame
        unfold Volume.lookup
        rw [if_neg hother, hsame, hnames, hnone]
        rfl
      · refine Volume.lookup_past (fun hnil => ?_) (fun f y hfound => ?_)
          (hnames ▸ hpast) hsame
        · rw [hnil] at hnames
          simp at hnames
        · rw [hlookup] at hfound
          cases hfound
    refine hwell.toSound.keeps_none hlast.toSound (hgone ?_)
      (hgone (hdel.follow_target hnext hnd he hdeletable henter))
    rw [Forest.follow_concat, hfront, Option.bind_some, hnew]
    rfl
  · exact (hkeeps other hpast).trans
      (hdel.keeps hnext hnd he hdeletable (hnext.findFile_congr hlast.toSound
        (hdel.lookup_eq hnext hnd he hdeletable henter hpast)))

end

/-! ## The calls -/

theorem newEntry_isDeleted
    (hhead : (filenameToFat32 (fileName path)).head? ≠ some 0xE5)
    (attrs first size : ℕ) :
    (newEntry (fileName path) attrs first size).isDeleted = false := by
  rw [Bool.eq_false_iff, ne_eq, Entry.isDeleted_iff, newEntry_name]
  exact hhead

section

variable {size : ℕ} (h : v.Tidy) (hpath : Named path)
  (hhead : (filenameToFat32 (fileName path)).head? ≠ some 0xE5)
  (hmissing : v.lookup path = none)
  (hfront : v.forest.enter v.rootCluster (parentNames path) = some d)

include h hpath hhead hmissing hfront

theorem fat32WriteFile_creates
    (hfit : size + v.bytesPerCluster ≤ 4294967296)
    (hroom : v.clustersOf size + 1 ≤ v.freeClusters.card)
    (buffer : ByteStore) :
    ∃ written next first extra,
      fat32WriteFile v path buffer size = .ok (written, next) ∧
      Creates v next d (newEntry (fileName path) 0x20 first size) extra ∧
      extra.length ≤ 1 := by
  have hneeded : v.needed size = v.clustersOf size := needed_eq h.geometry hfit
  rcases fat32WriteFile_cases h.toSound h.cursor hpath buffer size with
    ⟨hnone, -⟩ | ⟨d', done, mid, written, next, hfront', -, hreleases, -, -,
      hwrite, hwrites⟩
  · rw [hfront] at hnone
    cases hnone
  rw [hfront, Option.some.injEq] at hfront'
  subst hfront'
  have hsame : mid = v := by
    cases hreleases with
    | missing _ => rfl
    | occupied _ _ => rfl
    | released hlookup _ _ =>
        rw [hmissing] at hlookup
        cases hlookup
  subst hsame
  cases hwrites with
  | full hfull =>
      rw [Volume.card_freeClusters_eq_zero.2 hfull] at hroom
      exact absurd hroom (Nat.not_succ_le_zero _)
  | short _ hshort _ => omega
  | @dropped w first cs hstores hlength _ _ hfull =>
      have hleft := hstores.card_free h.geometry
      rw [Volume.card_freeClusters_eq_zero.2 hfull] at hleft
      omega
  | @stored w next first cs extra hstores _ _ hplaces =>
      refine ⟨_, next, first, extra, hwrite, ⟨newEntry_isDeleted hhead _ _ _, w, cs, ?_,
        hstores.admits_file h.toSound hpath.text_name, hplaces⟩,
        hplaces.length_le⟩
      rw [newEntry_firstCluster (hstores.firstCluster_lt h.geometry)]
      exact hstores.toTakes

theorem fat32CreateDirectory_creates
    (hroom : 2 ≤ v.freeClusters.card) :
    ∃ next first extra,
      fat32CreateDirectory v path = .ok (true, next) ∧
      Creates v next d (newEntry (fileName path) 0x10 first 0) extra ∧
      extra.length ≤ 1 := by
  rcases fat32CreateDirectory_cases h.toSound h.cursor hpath with
    ⟨hsome, -⟩ | ⟨hnone, -⟩ | ⟨d', made, next, -, hfront', hmake, hmakes⟩
  · exact absurd hmissing hsome
  · rw [hfront] at hnone
    cases hnone
  rw [hfront, Option.some.injEq] at hfront'
  subst hfront'
  cases hmakes with
  | full hfull =>
      rw [Volume.card_freeClusters_eq_zero.2 hfull] at hroom
      omega
  | dropped htakes _ hfull =>
      have hleft := htakes.card_free h.geometry
      rw [Volume.card_freeClusters_eq_zero.2 hfull,
        List.length_singleton] at hleft
      omega
  | @stored w next cluster extra htakes hempty hclosed hplaces =>
      refine ⟨next, cluster, extra, hmake, ⟨newEntry_isDeleted hhead _ _ _, w,
        [cluster], ?_, htakes.admits_directory h.toSound hpath.text_name
          hempty hclosed, hplaces⟩, hplaces.length_le⟩
      rw [newEntry_firstCluster (htakes.firstCluster_lt h.geometry)]
      exact htakes

/-- Writing a file or making a directory where nothing was. -/
theorem Call.run_creates
    {create : Call} {buffer : ByteStore}
    (hfit : size + v.bytesPerCluster ≤ 4294967296)
    (hroom : v.clustersOf size + 1 ≤ v.freeClusters.card)
    (hcreate : create = .write path buffer size ∨
      create = .createDirectory path) :
    ∃ next e extra, create.run v = .ok next ∧ Creates v next d e extra ∧
      extra.length ≤ 1 ∧ e.name = filenameToFat32 (fileName path) := by
  rcases hcreate with rfl | rfl
  · obtain ⟨written, next, first, extra, hwrite, hcreates, hlength⟩ :=
      fat32WriteFile_creates h hpath hhead hmissing hfront hfit hroom buffer
    exact ⟨next, _, extra, by rw [Call.run, hwrite]; rfl, hcreates, hlength,
      newEntry_name _ _ _ _⟩
  · have hone : 1 ≤ v.clustersOf size := Nat.le_max_left _ _
    obtain ⟨next, first, extra, hmake, hcreates, hlength⟩ :=
      fat32CreateDirectory_creates h hpath hhead hmissing hfront (by omega)
    exact ⟨next, _, extra, by rw [Call.run, hmake]; rfl, hcreates, hlength,
      newEntry_name _ _ _ _⟩

end

/-- A new directory is found under its path and empty, and every other path leads to
where it led before. -/
theorem fat32CreateDirectory_found
    (h : v.Tidy) (hpath : Canonical path) (hroot : components path ≠ [])
    (hmissing : findFile v path = .ok none)
    (hparent : v.forest.enter v.rootCluster (parentNames path) ≠ none)
    (hhead : (filenameToFat32 (fileName path)).head? ≠ some 0xE5)
    (hroom : 2 ≤ v.freeClusters.card) :
    ∃ next e d, fat32CreateDirectory v path = .ok (true, next) ∧
      findFile next path = .ok (some (e, d)) ∧ e.isDirectory = true ∧
      next.entries e.firstCluster = [] ∧
      (∀ other, shortNames other ≠ shortNames path → Keeps v next other) ∧
      next.WellFormed := by
  have hnamed := hpath.named hroot
  have hlookup : v.lookup path = none := h.toSound.lookup_of_findFile hmissing
  obtain ⟨d, hfront⟩ := Option.ne_none_iff_exists'.1 hparent
  have hnew := Volume.find_eq_none_of_lookup hnamed.name hlookup hfront
  obtain ⟨next, first, extra, hmake, hcreates, -⟩ :=
    fat32CreateDirectory_creates h hnamed hhead hlookup hfront hroom
  rw [← newEntry_name (fileName path) 0x10 first 0] at hnew
  obtain ⟨hnext, henter, hfind, hkeeps⟩ :=
    hcreates.enters h.toWellFormed hfront hnew
  have hempty := hcreates.deletable h.toWellFormed hfront
  have hentry := newEntry_name (fileName path) 0x10 first 0
  have hinner : (newEntry (fileName path) 0x10 first 0).isDirectory = true :=
    newEntry_isDirectory (by norm_num)
  generalize newEntry (fileName path) 0x10 first 0 = e at *
  have hnames : shortNames path = parentNames path ++ [e.name] := by
    rw [hentry]
    exact shortNames_eq hnamed.name
  have hfound : next.lookup path = some (e, d) :=
    (Volume.lookup_eq_some hnamed.name).2 ⟨henter, hentry ▸ hfind⟩
  refine ⟨next, e, d, hmake, ?_, hinner, hempty hinner, fun other hne => ?_,
    hnext⟩
  · rw [hnext.findFile_eq hnamed.length, hfound]
  by_cases hpast : (parentNames path ++ [e.name]) <+: shortNames other
  · have hinside := Forest.enter_concat_eq_some.2
      ⟨d, e, henter, hfind, hinner, rfl⟩
    obtain ⟨post, hpost⟩ := hpast
    have hmore : post ≠ [] := by
      rintro rfl
      rw [List.append_nil, ← hnames] at hpost
      exact hne hpost.symm
    have hbefore : v.lookup other = none :=
      Volume.lookup_past (fun hnil => hroot (shortNames_eq_nil_iff.1 hnil))
        (fun f y hsome => by rw [hlookup] at hsome; cases hsome)
        (hnames ▸ ⟨post, hpost⟩) hne
    have hafter : next.lookup other = none := by
      have hother : components other ≠ [] := by
        intro hnil
        rw [shortNames_eq_nil_iff.2 hnil] at hpost
        simp at hpost
      unfold Volume.lookup
      rw [if_neg hother, ← hpost,
        Forest.follow_empty hinside (hempty hinner) hmore]
      rfl
    exact h.toSound.keeps_none hnext.toSound hbefore hafter
  · exact hkeeps other hpast

/-- A file or directory that is created and deleted again changes no path, and the
free clusters are those from before but for one at most. -/
theorem runCalls_undone
    {create : Call} {buffer : ByteStore} {size : ℕ}
    (h : v.Tidy) (hpath : Canonical path) (hroot : components path ≠ [])
    (hmissing : findFile v path = .ok none)
    (hparent : v.forest.enter v.rootCluster (parentNames path) ≠ none)
    (hhead : (filenameToFat32 (fileName path)).head? ≠ some 0xE5)
    (hfit : size + v.bytesPerCluster ≤ 4294967296)
    (hroom : v.clustersOf size + 1 ≤ v.freeClusters.card)
    (hcreate : create = .write path buffer size ∨
      create = .createDirectory path) :
    ∃ next last, create.run v = .ok next ∧
      fat32Delete next path = .ok (true, last) ∧
      (∀ other, Keeps v last other) ∧
      ∃ extra : List ℕ, extra.length ≤ 1 ∧
        ∀ x, last.Free x ↔ v.Free x ∧ x ∉ extra := by
  have hnamed := hpath.named hroot
  have hlookup : v.lookup path = none := h.toSound.lookup_of_findFile hmissing
  obtain ⟨d, hfront⟩ := Option.ne_none_iff_exists'.1 hparent
  obtain ⟨next, e, extra, hrun, hcreates, hlength, hentry⟩ :=
    Call.run_creates h hnamed hhead hlookup hfront hfit hroom hcreate
  have hnew : v.forest.find d e.name = none := by
    rw [hentry]
    exact Volume.find_eq_none_of_lookup hnamed.name hlookup hfront
  obtain ⟨hnext, henter, hfind, -⟩ := hcreates.enters h.toWellFormed hfront hnew
  have hfound : next.lookup path = some (e, d) :=
    (Volume.lookup_eq_some hnamed.name).2 ⟨henter, hentry ▸ hfind⟩
  obtain ⟨last, hdelete, hdel⟩ := fat32Delete_deletes hnext.toSound
    hnamed.length hnamed.name hfound (hcreates.deletable h.toWellFormed hfront)
  have hnames : shortNames path = parentNames path ++ [e.name] := by
    rw [hentry]
    exact shortNames_eq hnamed.name
  exact ⟨next, last, hrun, hdelete,
    hcreates.undone h.toWellFormed hfront hnew hdel hnames, extra, hlength,
    fun x => hcreates.free_iff h.toWellFormed hfront hnew hdel⟩

end

theorem oneFile_missing : findFile oneFile [67] = .ok none := by
  have hmissing : (findFile oneFile [67]).satisfies
      (fun found => found.isNone) = true := by
    decide +kernel
  obtain ⟨found, hfind, hnone⟩ := Outcome.exists_of_satisfies hmissing
  rw [hfind, Option.isNone_iff_eq_none.1 hnone]

/-- The directory `C` on a volume with two free clusters. -/
theorem fat32CreateDirectory_found_oneFile :
    ∃ next e d, fat32CreateDirectory oneFile [67] = .ok (true, next) ∧
      findFile next [67] = .ok (some (e, d)) ∧ e.isDirectory = true ∧
      next.entries e.firstCluster = [] ∧
      (∀ other, shortNames other ≠ shortNames [67] →
        Keeps oneFile next other) ∧
      next.WellFormed :=
  fat32CreateDirectory_found oneFile_tidy
    ⟨by decide, by decide, by decide, by decide⟩ (by decide) oneFile_missing
    (by decide +kernel) (by decide) (by decide +kernel)

theorem runCalls_undone_oneFile :
    ∃ next last, (Call.createDirectory [67]).run oneFile = .ok next ∧
      fat32Delete next [67] = .ok (true, last) ∧
      (∀ other, Keeps oneFile last other) ∧
      ∃ extra : List ℕ, extra.length ≤ 1 ∧
        ∀ x, last.Free x ↔ oneFile.Free x ∧ x ∉ extra :=
  @runCalls_undone oneFile [67] _ (fun _ => 0) 0 oneFile_tidy
    ⟨by decide, by decide, by decide, by decide⟩ (by decide) oneFile_missing
    (by decide +kernel) (by decide) (by decide +kernel) (by decide +kernel)
    (.inr rfl)

end ClOs.Fat32
