import ClOs.Fat32Calls

/-!
# What a stored file leaves

A write that finds room for its bytes and its entry puts one file into the tree and
changes nothing else that a path leads to.  Every cluster that is linked afterwards
is on the chain of a file or a directory, if this was so before.
-/

namespace ClOs.Fat32

open ByteStore

/-- Every cluster that is linked is on the chain of a file or a directory. -/
def Volume.Accounted (v : Volume) : Prop :=
  ∀ x, v.bpb.Has x → v.Spare x → v.link x = 0

/-- A well-formed volume without lost clusters, whose next search starts at one of
its clusters. -/
structure Volume.Tidy (v : Volume) : Prop extends v.WellFormed where
  cursor : v.bpb.Has v.lastFreeCluster
  accounted : v.Accounted

def Volume.released (v : Volume) (path : CString) : ℕ :=
  match v.lookup path with
  | some (e, _) =>
      if v.Deletable e then (v.chain e.firstCluster).length else 0
  | none => 0

/-- On a volume seen from a list of directories, no cluster is lost when those on no
chain are free. -/
theorem Volume.accounted_of_list
    {v : Volume} {ds : List ℕ} (hdirectories : ∀ d ∈ ds, v.forest.Directory d)
    (hlinked : ∀ x < v.bpb.clusters + 2, 2 ≤ x →
      x ∉ (v.owners ds).flatMap v.chain → v.link x = 0) : v.Accounted := by
  refine fun x hx hspare => hlinked x hx.2 hx.1 fun hmem => ?_
  obtain ⟨y, hy, hchain⟩ := List.mem_flatMap.1 hmem
  refine hspare y ?_ hchain
  rcases List.mem_cons.1 hy with rfl | hy
  · exact v.directory_root.owned
  · obtain ⟨d, hd, hy⟩ := List.mem_flatMap.1 hy
    obtain ⟨e, he, rfl⟩ := List.mem_map.1 hy
    exact Forest.owned_of_mem (hdirectories d hd) he

theorem Volume.Listed.tidy
    {v : Volume} {ds : List ℕ} (h : v.Listed ds)
    (hdirectories : ∀ d ∈ ds, v.forest.Directory d)
    (hcursor : v.bpb.Has v.lastFreeCluster)
    (hlinked : ∀ x < v.bpb.clusters + 2, 2 ≤ x →
      x ∉ (v.owners ds).flatMap v.chain → v.link x = 0) : v.Tidy where
  toWellFormed := h.wellFormed
  cursor := hcursor
  accounted := Volume.accounted_of_list hdirectories hlinked

section

variable {v w mid next : Volume} {d x first size : ℕ} {e : Entry}
  {path other : CString} {cs extra : List ℕ} {done : Bool} {buffer : ByteStore}

/-! ## Deletion -/

section

variable (h : v.Sound) (hd : v.forest.Directory d) (he : e ∈ v.entries d)
  (hdel : Deletes v next d e)

include h hd he hdel

theorem Deletes.free_iff :
    next.Free x ↔ v.Free x ∨ x ∈ v.chain e.firstCluster := by
  have hends := h.ends _ (Forest.owned_of_mem hd he)
  have hkeep : v.bpb.Has x → x ∉ v.chain e.firstCluster →
      next.link x = v.link x := fun hx hne =>
    hdel.frame.link h.geometry.tables (h.geometry.hasEntry hx) hne
  unfold Volume.Free
  rw [hdel.frame.bpb]
  constructor
  · rintro ⟨hx, hzero⟩
    by_cases hmem : x ∈ v.chain e.firstCluster
    · exact .inr hmem
    · exact .inl ⟨hx, (hkeep hx hmem).symm.trans hzero⟩
  · rintro (⟨hx, hzero⟩ | hmem)
    · refine ⟨hx, (hkeep hx fun hmem => ?_).trans hzero⟩
      exact hends.link_ne_zero hmem hzero
    · exact ⟨hends.cluster x hmem, hdel.freed 0 h.geometry.copies x hmem⟩

theorem Deletes.card_free :
    next.freeClusters.card =
      v.freeClusters.card + (v.chain e.firstCluster).length := by
  have hends : v.Ends e.firstCluster :=
    h.ends _ (Forest.owned_of_mem hd he)
  have hunion : next.freeClusters =
      v.freeClusters ∪ (v.chain e.firstCluster).toFinset := by
    ext y
    rw [Finset.mem_union, Volume.mem_freeClusters, Volume.mem_freeClusters,
      List.mem_toFinset]
    exact hdel.free_iff h hd he
  have hdisjoint : Disjoint v.freeClusters
      (v.chain e.firstCluster).toFinset := by
    refine Finset.disjoint_left.2 fun y hy hmem => ?_
    exact hends.link_ne_zero (List.mem_toFinset.1 hmem)
      (Volume.mem_freeClusters.1 hy).2
  rw [hunion, Finset.card_union_of_disjoint hdisjoint,
    List.toFinset_card_of_nodup hends.chain.nodup]

theorem Deletes.accounted
    (hempty : v.Deletable e) (haccounted : v.Accounted) : next.Accounted := by
  have hadds := (hdel.removes h hd he hempty).adds h.tree
  have howned := Forest.owned_of_mem hd he
  intro x hx hspare
  rw [hdel.frame.bpb] at hx
  by_cases hmem : x ∈ v.chain e.firstCluster
  · exact hdel.freed 0 h.geometry.copies x hmem
  · rw [hdel.frame.link h.geometry.tables (h.geometry.hasEntry hx) hmem]
    refine haccounted x hx fun y hy hchain => ?_
    rcases hadds.owned_iff.1 hy with hkept | rfl
    · have hne : y ≠ e.firstCluster := by
        rintro rfl
        exact hadds.fresh hkept
      have hsame := ((h.ends y hy).frame hdel.frame h.geometry
        fun t ht hfreed => h.disjoint y _ hy howned hne ht hfreed).2
      exact hspare y hkept (hsame ▸ hchain)
    · exact hmem hchain

end

/-- What a path leads to before its old file is deleted. -/
theorem Releases.card_free
    (h : Releases v path done next) (hsound : v.Sound) (hpath : Named path) :
    next.freeClusters.card = v.freeClusters.card + v.released path := by
  unfold Volume.released
  cases h with
  | missing hlookup =>
      rw [hlookup]
      rfl
  | occupied hlookup hkeep =>
      rw [hlookup]
      simp only [if_neg hkeep, Nat.add_zero]
  | released hlookup hempty hdel =>
      obtain ⟨hfront, hentry⟩ := (Volume.lookup_eq_some hpath.name).1 hlookup
      rw [hlookup]
      simp only [if_pos hempty]
      exact hdel.card_free hsound
        (Forest.directory_of_enter v.directory_root hfront)
        (Forest.find_eq_some hentry).1

theorem Releases.accounted
    (h : Releases v path done next) (hsound : v.Sound) (hpath : Named path)
    (haccounted : v.Accounted) : next.Accounted := by
  cases h with
  | missing _ => exact haccounted
  | occupied _ _ => exact haccounted
  | released hlookup hempty hdel =>
      obtain ⟨hfront, hentry⟩ := (Volume.lookup_eq_some hpath.name).1 hlookup
      exact hdel.accounted hsound
        (Forest.directory_of_enter v.directory_root hfront)
        (Forest.find_eq_some hentry).1 hempty haccounted

theorem Releases.wellFormed
    (h : Releases v path done next) (hwell : v.WellFormed)
    (hpath : Named path) : next.WellFormed := by
  cases h with
  | missing _ => exact hwell
  | occupied _ _ => exact hwell
  | released hlookup hempty hdel =>
      obtain ⟨hfront, hentry⟩ := (Volume.lookup_eq_some hpath.name).1 hlookup
      exact hdel.wellFormed hwell
        (Forest.directory_of_enter v.directory_root hfront)
        (Forest.find_eq_some hentry).1 hempty

theorem Releases.cursor
    (h : Releases v path done next) (hcursor : v.bpb.Has v.lastFreeCluster) :
    next.bpb.Has next.lastFreeCluster := by
  rw [h.frame.bpb]
  exact h.frame.cursor hcursor

/-! ## The new chain -/

theorem Takes.card_free
    (h : Takes v w first cs) (hgeometry : v.bpb.Geometry) :
    w.freeClusters.card + cs.length = v.freeClusters.card := by
  have hsplit : w.freeClusters = v.freeClusters \ cs.toFinset := by
    ext y
    rw [Finset.mem_sdiff, Volume.mem_freeClusters, Volume.mem_freeClusters,
      List.mem_toFinset]
    exact h.free_iff hgeometry
  have hsub : cs.toFinset ⊆ v.freeClusters := fun y hy =>
    Volume.mem_freeClusters.2 (h.free y (List.mem_toFinset.1 hy))
  have hcard := Finset.card_sdiff_add_card_eq_card hsub
  rwa [← hsplit, List.toFinset_card_of_nodup h.chain.nodup] at hcard

section

variable (hsound : v.Sound) (hd : v.forest.Directory d)
  (hinserts : Inserts v next d e extra)

include hsound hd hinserts

theorem Inserts.chain_of
    (hx : v.forest.Owned x ∨ v.Loose x) (hne : x ≠ d) :
    next.chain x = v.chain x := by
  rcases hx with hx | hx
  · exact ((hsound.ends x hx).frame hinserts.frame hsound.geometry
      (hinserts.owned_apart hsound hd hx hne)).2
  · exact (hx.ends.frame hinserts.frame hsound.geometry
      (hinserts.loose_apart hd hx)).2

theorem Inserts.chain_subset
    (hx : v.forest.Owned x ∨ v.Loose x) : v.chain x ⊆ next.chain x := by
  by_cases hsame : x = d
  · rw [hsame, hinserts.chain]
    exact List.subset_append_left _ _
  · rw [hinserts.chain_of hsound hd hx hsame]
    exact List.Subset.refl _

end

theorem Takes.accounted
    (h : Takes v w first cs) (hsound : v.Sound)
    (hd : w.forest.Directory d) (hinserts : Inserts w next d e extra)
    (hadmits : w.Admits e) (hkept : e.isDeleted = false)
    (hfirst : e.firstCluster = first) (haccounted : v.Accounted) :
    next.Accounted := by
  obtain ⟨hwsound, hagrees⟩ := h.sound hsound
  have hadds := hinserts.adds hwsound hd hadmits hkept
  have hbpb : next.bpb = v.bpb := hinserts.frame.bpb.trans h.frame.bpb
  have hgeometry := hsound.geometry
  intro x hx hspare
  rw [hbpb] at hx
  have hnew : x ∉ cs := by
    intro hmem
    have howned : next.forest.Owned e.firstCluster :=
      hadds.owned_iff.2 (.inr rfl)
    refine hspare _ howned (hinserts.chain_subset hwsound hd
      (.inr hadmits.loose) ?_)
    rw [hfirst, h.chain_eq.2]
    exact hmem
  have hgrown : x ∉ w.chain d ++ extra := by
    intro hmem
    refine hspare d (hadds.owned_iff.2 (.inl hd.owned)) ?_
    rw [hinserts.chain]
    exact hmem
  have hold : v.Spare x := by
    intro y hy hmem
    have hywowned := hagrees.owned_iff.2 hy
    refine hspare y (hadds.owned_iff.2 (.inl hywowned))
      (hinserts.chain_subset hwsound hd (.inl hywowned) ?_)
    rw [h.owned_chain hsound hy]
    exact hmem
  rw [hinserts.frame.link (h.frame.geometry hgeometry).tables
      (h.frame.bpb ▸ hgeometry.hasEntry hx) hgrown,
    h.frame.link hgeometry.tables (hgeometry.hasEntry hx) hnew]
  exact haccounted x hx hold

/-! ## What is found afterwards -/

theorem Keeps.trans
    (h : Keeps v w path) (h' : Keeps w next path) : Keeps v next path where
  found := h'.found.trans h.found
  read e d hfind hfile buffer :=
    (h'.read e d (h.found.trans hfind) hfile buffer).trans
      (h.read e d hfind hfile buffer)

/-- A chain without an entry changes nothing that is found. -/
theorem Takes.keeps
    (h : Takes v w first cs) (hsound : v.Sound) (path : CString) :
    Keeps v w path := by
  obtain ⟨hwsound, hagrees⟩ := h.sound hsound
  have hlookup : w.lookup path = v.lookup path := by
    have hroot : w.rootCluster = v.rootCluster := hagrees.root
    refine Volume.lookup_eq_of_follow hroot ?_
    rw [hroot]
    exact hagrees.follow_eq v.directory_root (shortNames path)
  refine hsound.keeps h.frame (hsound.findFile_congr hwsound hlookup)
    fun e d hfind hfile x hx => ?_
  obtain ⟨hd, he⟩ := hsound.mem_of_findFile hfind hfile
  have hspare : x ∉ cs := fun hmem =>
    hsound.spare_of_free (h.free x hmem) _ (Forest.owned_of_mem hd he) hx
  exact ⟨hspare, hspare⟩

/-- A file is read as before from a volume where a directory has grown. -/
theorem Inserts.keeps
    (h : Inserts v next d e extra) (hsound : v.Sound)
    (hd : v.forest.Directory d)
    (hfound : findFile next other = findFile v other) : Keeps v next other := by
  refine hsound.keeps h.frame hfound fun f y hfind hfile x hx => ?_
  obtain ⟨hy, hf⟩ := hsound.mem_of_findFile hfind hfile
  have hplace : f.firstCluster ≠ d := by
    rintro rfl
    have hinner := hsound.tree.inner_of_directory hy hf hd
    rw [forest_inner, hfile] at hinner
    cases hinner
  have hapart := h.owned_apart hsound hd (Forest.owned_of_mem hy hf) hplace x hx
  exact ⟨hapart, hapart⟩

section

variable {front : List (List UInt8)} (hwell : v.WellFormed)
  (hd : v.forest.Directory d) (hinserts : Inserts v next d e extra)
  (hadmits : v.Admits e) (hkept : e.isDeleted = false)
  (hnew : v.forest.find d e.name = none)

include hwell hd hinserts hadmits hkept hnew

theorem Inserts.wellFormed : next.WellFormed := by
  have hadds := hinserts.adds hwell.toSound hd hadmits hkept
  refine ⟨hinserts.sound hwell.toSound hd hadmits hkept,
    hadds.unique hwell.unique ?_⟩
  exact Forest.find_eq_none.1 hnew

/-- The new entry is found at its path. -/
theorem Inserts.found
    (hfront : v.forest.enter v.rootCluster front = some d) :
    next.forest.enter next.rootCluster front = some d ∧
      next.forest.find d e.name = some e := by
  have hadds := hinserts.adds hwell.toSound hd hadmits hkept
  have hnext := hinserts.wellFormed hwell hd hadmits hkept hnew
  have hroot : next.rootCluster = v.rootCluster := hadds.root
  refine ⟨?_, hadds.find_new hnext.unique⟩
  rw [hroot]
  exact hadds.enter_mono hnext.unique v.directory_root hfront

/-- A path that does not pass through the new entry is followed as before. -/
theorem Inserts.lookup_eq
    (hfront : v.forest.enter v.rootCluster front = some d)
    (hpast : ¬(front ++ [e.name]) <+: shortNames other) :
    next.lookup other = v.lookup other := by
  have hadds := hinserts.adds hwell.toSound hd hadmits hkept
  have hnext := hinserts.wellFormed hwell hd hadmits hkept hnew
  have hroot : next.rootCluster = v.rootCluster := hadds.root
  have henter := (hinserts.found hwell hd hadmits hkept hnew hfront).1
  exact Volume.lookup_eq_of_follow hroot
    (hadds.follow_eq hnext.tree hnext.unique henter hpast)

end

/-- A new chain gets an entry under a free name. -/
theorem Takes.enters
    {front : List (List UInt8)} (h : Takes v w first cs) (hwell : v.WellFormed)
    (hfront : v.forest.enter v.rootCluster front = some d)
    (hnew : v.forest.find d e.name = none) (hadmits : w.Admits e)
    (hkept : e.isDeleted = false) (hinserts : Inserts w next d e extra) :
    next.WellFormed ∧
      next.forest.enter next.rootCluster front = some d ∧
      next.forest.find d e.name = some e ∧
      ∀ other, ¬(front ++ [e.name]) <+: shortNames other →
        Keeps v next other := by
  obtain ⟨hsound, hagrees⟩ := h.sound hwell.toSound
  have hwwell : w.WellFormed := ⟨hsound, hagrees.unique hwell.unique⟩
  have hroot : w.rootCluster = v.rootCluster := hagrees.root
  have hd := Forest.directory_of_enter v.directory_root hfront
  have hwd := hagrees.directory_iff.2 hd
  have hwfront : w.forest.enter w.rootCluster front = some d := by
    rw [hroot, hagrees.enter_eq v.directory_root]
    exact hfront
  have hwnew : w.forest.find d e.name = none := by
    rw [hagrees.find_eq hd]
    exact hnew
  have hnext := hinserts.wellFormed hwwell hwd hadmits hkept hwnew
  obtain ⟨henter, hfind⟩ :=
    hinserts.found hwwell hwd hadmits hkept hwnew hwfront
  refine ⟨hnext, henter, hfind, fun other hpast => ?_⟩
  have hlookup :=
    hinserts.lookup_eq hwwell hwd hadmits hkept hwnew hwfront hpast
  exact (h.keeps hwell.toSound other).trans
    (hinserts.keeps hsound hwd (hsound.findFile_congr hnext.toSound hlookup))

section

variable (hwell : v.WellFormed) (hpath : Named path)

include hwell hpath

theorem Releases.parent
    (h : Releases v path done next)
    (hfront : v.forest.enter v.rootCluster (parentNames path) = some d) :
    next.forest.enter next.rootCluster (parentNames path) = some d := by
  cases h with
  | missing _ => exact hfront
  | occupied _ _ => exact hfront
  | released hlookup hempty hdel =>
      obtain ⟨hfront', hentry⟩ := (Volume.lookup_eq_some hpath.name).1 hlookup
      rw [hfront, Option.some.injEq] at hfront'
      subst hfront'
      exact hdel.enter_front hwell
        (Forest.directory_of_enter v.directory_root hfront)
        (Forest.find_eq_some hentry).1 hempty hfront

/-- The name of the target is free unless an occupied directory has it. -/
theorem Releases.find_eq_none
    (h : Releases v path done next)
    (hfront : v.forest.enter v.rootCluster (parentNames path) = some d)
    (hdeletable : ∀ e y, v.lookup path = some (e, y) → v.Deletable e) :
    next.forest.find d (filenameToFat32 (fileName path)) = none := by
  cases h with
  | missing hlookup =>
      cases hfind : v.forest.find d (filenameToFat32 (fileName path)) with
      | none => rfl
      | some e =>
          rw [(Volume.lookup_eq_some hpath.name).2 ⟨hfront, hfind⟩] at hlookup
          cases hlookup
  | occupied hlookup hkeep => exact absurd (hdeletable _ _ hlookup) hkeep
  | @released _ e _ hlookup hempty hdel =>
      obtain ⟨hfront', hentry⟩ := (Volume.lookup_eq_some hpath.name).1 hlookup
      rw [hfront, Option.some.injEq] at hfront'
      subst hfront'
      obtain ⟨he, hsame⟩ := Forest.find_eq_some hentry
      have hadds := hdel.adds hwell
        (Forest.directory_of_enter v.directory_root hfront) he hempty
      rw [← hsame]
      exact hadds.find_small hwell.unique

/-- A path that does not pass through the target is found as before. -/
theorem Releases.keeps
    (h : Releases v path done next)
    (hpast : ¬shortNames path <+: shortNames other) : Keeps v next other := by
  cases h with
  | missing _ => exact ⟨rfl, fun _ _ _ _ _ => rfl⟩
  | occupied _ _ => exact ⟨rfl, fun _ _ _ _ _ => rfl⟩
  | @released _ e d hlookup hempty hdel =>
      obtain ⟨hfront, hentry⟩ := (Volume.lookup_eq_some hpath.name).1 hlookup
      obtain ⟨he, hsame⟩ := Forest.find_eq_some hentry
      have hd := Forest.directory_of_enter v.directory_root hfront
      have hnames : shortNames path = parentNames path ++ [e.name] := by
        rw [shortNames_eq hpath.name, ← hsame]
        rfl
      rw [hnames] at hpast
      have hnext := hdel.wellFormed hwell hd he hempty
      exact hdel.keeps hwell hd he hempty
        (hwell.findFile_congr hnext.toSound
          (hdel.lookup_eq hwell hd he hempty hfront hpast))

end

/-! ## `fat32_write_file` -/

theorem shortNames_eq_nil_iff :
    shortNames path = [] ↔ components path = [] := by
  unfold shortNames
  exact List.map_eq_nil_iff

/-- Nothing is found beyond a path that leads to no directory. -/
theorem Volume.lookup_past
    (hnames : shortNames path ≠ [])
    (hleaf : ∀ f y, v.lookup path = some (f, y) → f.isDirectory = false)
    (hpast : shortNames path <+: shortNames other)
    (hne : shortNames other ≠ shortNames path) : v.lookup other = none := by
  obtain ⟨post, hpost⟩ := hpast
  have hmore : post ≠ [] := by
    rintro rfl
    rw [List.append_nil] at hpost
    exact hne hpost.symm
  have hother : components other ≠ [] := by
    intro hnone
    have hnil := shortNames_eq_nil_iff.2 hnone
    rw [← hpost] at hnil
    exact hnames (List.append_eq_nil_iff.1 hnil).1
  have hpath : components path ≠ [] :=
    fun hnone => hnames (shortNames_eq_nil_iff.2 hnone)
  unfold Volume.lookup
  rw [if_neg hother, ← hpost, Forest.follow_past hnames _ hmore]
  · rfl
  · intro y f hfollow
    refine hleaf f y ?_
    unfold Volume.lookup
    rw [if_neg hpath, hfollow]
    rfl

theorem Stores.readClusters_eq
    (h : Stores v w first cs buffer size) (hsound : v.Sound)
    (hlength : size ≤ cs.length * v.bytesPerCluster)
    (hd : w.forest.Directory d) (hinserts : Inserts w next d e extra)
    (out : ByteStore) :
    readClusters next size (size + chainFuel + 1) first 0 out =
      .ok (size, out.blit 0 buffer size) := by
  have hwsound := (h.sound hsound).1
  have hloose := h.loose hsound
  have hchain := h.chain_eq.2
  have hne : first ≠ d := by
    rintro rfl
    exact hloose.not_owned hwsound hd.owned
  have hends := (hinserts.ends_of hwsound hd (.inr hloose)).1
  have hkept : next.chain first = cs :=
    (hinserts.chain_of hwsound hd (.inr hloose) hne).trans hchain
  have hcs : ∀ x ∈ cs, w.bpb.Has x := by
    rw [h.frame.bpb]
    exact fun x hx => (h.free x hx).1
  have hapart : ∀ x ∈ cs, x ∉ w.chain d ++ extra := by
    rw [← hchain]
    exact hinserts.loose_apart hd hloose
  have hcontents : next.contents cs = w.contents cs :=
    hinserts.frame.contents hcs hapart
  have hbytes : next.bytesPerCluster = v.bytesPerCluster :=
    hinserts.frame.bytesPerCluster.trans h.frame.bytesPerCluster
  have hgeometry := hinserts.frame.geometry (h.frame.geometry hsound.geometry)
  rw [Fat32.readClusters_eq hgeometry hends, hkept, hcontents, hbytes,
    Nat.min_eq_left hlength]
  congr 2
  refine blit_congr _ fun k hk => ?_
  exact h.stored k (by omega) hk

/-- A write of some bytes to a file in a directory, with a cluster to spare, stores
the file under its path and changes no other path. -/
theorem fat32WriteFile_stores
    (h : v.Tidy) (hpath : Canonical path) (hroot : components path ≠ [])
    (hparent : v.forest.enter v.rootCluster (parentNames path) ≠ none)
    (hname : (filenameToFat32 (fileName path)).head? ≠ some 0xE5)
    (hfile : ∀ e d, findFile v path = .ok (some (e, d)) →
      e.isDirectory = false)
    (hsize : 0 < size) (hfit : size + v.bytesPerCluster < 4294967296)
    (hspace : (size + v.bytesPerCluster - 1) / v.bytesPerCluster + 1 ≤
      v.freeClusters.card + v.released path) (buffer : ByteStore) :
    ∃ next, fat32WriteFile v path buffer size = .ok (size, next) ∧
      (∀ out, fat32ReadFile next path out =
        .ok (size, out.blit 0 buffer size)) ∧
      (∀ other, shortNames other ≠ shortNames path → Keeps v next other) ∧
      next.Tidy := by
  have hnamed := hpath.named hroot
  have hgeometry := h.geometry
  have hleaf : ∀ e y, v.lookup path = some (e, y) → e.isDirectory = false :=
    fun e y hlookup => hfile e y (by
      rw [h.findFile_eq hnamed.length, hlookup])
  have hdeletable : ∀ e y, v.lookup path = some (e, y) → v.Deletable e := by
    intro e y hlookup hinner
    rw [hleaf e y hlookup] at hinner
    cases hinner
  rcases fat32WriteFile_cases h.toSound h.cursor hnamed buffer size with
    ⟨hnone, -⟩ | ⟨d, done, mid, written, next, hfront, -, hreleases, -, -,
      hwrite, hwrites⟩
  · exact absurd hnone hparent
  have hmid := hreleases.wellFormed h.toWellFormed hnamed
  have hcard := hreleases.card_free h.toSound hnamed
  have hmidfront := hreleases.parent h.toWellFormed hnamed hfront
  have hd := Forest.directory_of_enter mid.directory_root hmidfront
  have hnew := hreleases.find_eq_none h.toWellFormed hnamed hfront hdeletable
  have hbytes : mid.bytesPerCluster = v.bytesPerCluster :=
    hreleases.frame.bytesPerCluster
  have hfill : size ≤ mid.needed size * mid.bytesPerCluster :=
    le_needed hmid.geometry (by omega)
  have hneeded : mid.needed size + 1 ≤ mid.freeClusters.card := by
    have hpos := bytesPerCluster_pos hgeometry
    have hone : 1 ≤ (size + v.bytesPerCluster - 1) / v.bytesPerCluster :=
      (Nat.one_le_div_iff hpos).2 (by omega)
    rw [needed_eq hmid.geometry (by omega), hbytes, max_eq_right hone, hcard]
    exact hspace
  cases hwrites with
  | full hfull =>
      rw [Volume.card_freeClusters_eq_zero.2 hfull] at hneeded
      exact absurd hneeded (Nat.not_succ_le_zero _)
  | short _ hshort _ => exact absurd hshort (by omega)
  | @dropped w first cs hstores hlength _ _ hfull =>
      have hleft := hstores.card_free hmid.geometry
      rw [Volume.card_freeClusters_eq_zero.2 hfull] at hleft
      omega
  | @stored w next first cs extra hstores hlength _ hplaces =>
      rw [Nat.min_eq_left (by omega)] at hlength
      have hwritten : min size (cs.length * mid.bytesPerCluster) = size := by
        rw [hlength]
        exact Nat.min_eq_left hfill
      rw [hwritten] at hwrite
      have hadmits : w.Admits
          (newEntry (fileName path) 0x20 first size) :=
        hstores.admits_file hmid.toSound hnamed.text_name
      have hkept : (newEntry (fileName path) 0x20 first size).isDeleted =
          false := by
        rw [Bool.eq_false_iff, ne_eq, Entry.isDeleted_iff, newEntry_name]
        exact hname
      have hentry := newEntry_name (fileName path) 0x20 first size
      have hfirst := hstores.firstCluster_lt hmid.geometry
      have hinserts := hplaces.inserts
      rw [← hentry] at hnew
      obtain ⟨hnext, henter, hfind, hkeeps⟩ :=
        hstores.enters hmid hmidfront hnew hadmits hkept hinserts
      rw [hentry] at hfind hkeeps
      have hwd := (hstores.sound hmid.toSound).2.directory_iff.2 hd
      refine ⟨next, hwrite, fun out => ?_, fun other hne => ?_, hnext, ?_, ?_⟩
      · have hlookup := (Volume.lookup_eq_some hnamed.name).2 ⟨henter, hfind⟩
        unfold fat32ReadFile
        simp only [hnext.findFile_eq hnamed.length, hlookup, bind, Except.bind]
        rw [newEntry_size (by omega), newEntry_firstCluster hfirst]
        exact hstores.readClusters_eq hmid.toSound (hlength ▸ hfill) hwd
          hinserts out
      · by_cases hpast : shortNames path <+: shortNames other
        · have hnames : shortNames path ≠ [] :=
            fun hnil => hroot (shortNames_eq_nil_iff.1 hnil)
          have hold := Volume.lookup_past hnames hleaf hpast hne
          have hgone : next.lookup other = none := by
            refine Volume.lookup_past hnames (fun f y hlookup => ?_) hpast hne
            rw [(Volume.lookup_eq_some hnamed.name).2 ⟨henter, hfind⟩] at hlookup
            obtain ⟨rfl, -⟩ := Prod.mk.inj (Option.some.inj hlookup)
            exact newEntry_isDirectory (by norm_num)
          exact h.keeps_none hnext.toSound hold hgone
        · refine (hreleases.keeps h.toWellFormed hnamed hpast).trans
            (hkeeps other ?_)
          rwa [← shortNames_eq hnamed.name]
      · rw [hinserts.frame.bpb]
        refine hinserts.frame.cursor ?_
        rw [hstores.frame.bpb]
        exact hstores.frame.cursor (hreleases.cursor h.cursor)
      · exact hstores.accounted hmid.toSound hwd hinserts hadmits hkept
          (newEntry_firstCluster hfirst)
          (hreleases.accounted h.toSound hnamed h.accounted)

end

theorem oneFile_tidy : oneFile.Tidy := by
  refine oneFile_listed.tidy ?_ (by decide +kernel) (by decide +kernel)
  intro d hd
  rw [List.mem_singleton.1 hd, ← List.mem_singleton.1 oneFile_listed.root]
  exact oneFile.directory_root

/-- The file `B` of 100 bytes is stored on a volume with two free clusters. -/
theorem fat32WriteFile_stores_oneFile :
    ∃ next, fat32WriteFile oneFile [66] (fun _ => 7) 100 = .ok (100, next) ∧
      (∀ out, fat32ReadFile next [66] out =
        .ok (100, out.blit 0 (fun _ => 7) 100)) ∧
      (∀ other, shortNames other ≠ shortNames [66] →
        Keeps oneFile next other) ∧
      next.Tidy := by
  have hmissing : (findFile oneFile [66]).satisfies (fun found => found.isNone) =
      true := by
    decide +kernel
  refine fat32WriteFile_stores oneFile_tidy
    ⟨by decide, by decide, by decide, by decide⟩ (by decide) (by decide +kernel)
    (by decide) (fun e d hfind => ?_) (by norm_num) (by decide +kernel)
    (by decide +kernel) (fun _ => 7)
  rw [hfind] at hmissing
  cases hmissing

/-! ## A volume beyond the reach of the drive -/

theorem wide_chains :
    (∃ e ∈ wide.entries 2, e.isDirectory = true ∧
        e.firstCluster = 134217731) ∧
      (wide.owners [2, 134217731]).flatMap wide.chain = [2, 3, 134217731, 4] ∧
      wide.bpb.clusters = 134217738 ∧ wide.bpb.reservedSectorCount = 1 := by
  decide +kernel

theorem wide_directory : wide.forest.Directory 134217731 := by
  obtain ⟨e, he, hinner, htarget⟩ := wide_chains.1
  have hd : wide.forest.Directory 2 := wide_values.2.2 ▸ wide.directory_root
  exact htarget ▸ .child hd he hinner

theorem wide_accounted : wide.Accounted := by
  refine @Volume.accounted_of_list _ [2, 134217731] ?_ ?_
  · intro d hd
    rcases List.mem_pair.1 hd with rfl | rfl
    · exact wide_values.2.2 ▸ wide.directory_root
    · exact wide_directory
  · intro x hx hlow hout
    obtain ⟨-, hchains, hclusters, hreserved⟩ := wide_chains
    have haddress : wide.bpb.fatAddress 0 x = 4 * (128 + x) := by
      unfold Bpb.fatAddress
      rw [hreserved]
      omega
    rw [hchains] at hout
    rw [hclusters] at hx
    simp only [List.mem_cons, List.not_mem_nil, or_false, not_or] at hout
    unfold Volume.link Volume.fatEntry
    rw [haddress, show wide.disk = ofWords wideWords from rfl, ofWords_le32,
      List.lookup_eq_none_iff.2]
    · simp [u32]
    · intro p hp
      have hplace : ∀ q ∈ wideWords,
          q.1 ∈ [520, 524, 528, 536871436] ∨ 536871936 ≤ q.1 := by
        decide
      rw [bne_iff_ne]
      rcases hplace p hp with hentry | hdata
      · simp only [List.mem_cons, List.not_mem_nil, or_false] at hentry
        omega
      · omega

/-- Writing `B` there returns, and the bytes of the file `D/X` have changed. -/
theorem fat32WriteFile_overwrites :
    wide.Laid ∧ wide.bpb.Has wide.lastFreeCluster ∧ wide.Accounted ∧
      Canonical [66] ∧ components [66] ≠ [] ∧
      wide.forest.enter wide.rootCluster (parentNames [66]) ≠ none ∧
      (filenameToFat32 (fileName [66])).head? ≠ some 0xE5 ∧
      findFile wide [66] = .ok none ∧
      (100 + wide.bytesPerCluster - 1) / wide.bytesPerCluster + 1 ≤
        wide.freeClusters.card ∧
      shortNames [68, 47, 88] ≠ shortNames [66] ∧
      ∃ next, fat32WriteFile wide [66] (fun _ => 7) 100 = .ok (100, next) ∧
        ¬Keeps wide next [68, 47, 88] := by
  have hmissing : (findFile wide [66]).satisfies Option.isNone = true := by
    decide +kernel
  obtain ⟨found, hfind, hnone⟩ := Outcome.exists_of_satisfies hmissing
  obtain rfl := Option.isNone_iff_eq_none.1 hnone
  have hfree : {134217732, 134217733} ⊆ wide.freeClusters := by
    intro x hx
    rw [Volume.mem_freeClusters]
    rcases List.mem_pair.1 (by simpa using hx) with rfl | rfl <;> decide +kernel
  have hrun : (fat32WriteFile wide [66] (fun _ => 7) 100).satisfies (fun r =>
      decide (r.1 = 100) && (fat32ReadFile r.2 [68, 47, 88] (fun _ => 0)).satisfies
        (fun b => decide (b.2 0 = 7))) = true := by
    decide +kernel
  obtain ⟨⟨size, next⟩, hwrite, hresult⟩ := Outcome.exists_of_satisfies hrun
  obtain ⟨hsize, hnew⟩ := Bool.and_eq_true_iff.1 hresult
  obtain rfl : size = 100 := of_decide_eq_true hsize
  refine ⟨wide_laid, by decide +kernel, wide_accounted,
    ⟨by decide, by decide, by decide, by decide⟩, by decide, by decide +kernel,
    by decide, hfind, ?_, by decide, next, hwrite, ?_⟩
  · exact le_trans (by decide +kernel) (Finset.card_le_card hfree)
  · exact not_keeps_of_read (by decide +kernel)
      (show (fat32ReadFile wide [68, 47, 88] (fun _ => 0)).satisfies
        (fun b => decide (b.2 0 = 0x5A)) = true by decide +kernel) hnew (by decide)

end ClOs.Fat32
