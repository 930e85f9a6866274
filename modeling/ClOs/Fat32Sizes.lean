import ClOs.Fat32Runs

/-!
# Sizes and clusters

A file of some bytes has as many clusters as the bytes fill, and at least one.
Calls that find enough free clusters, or none at all, keep it so, and lose no
cluster on the way.
-/

namespace ClOs.Fat32

open ByteStore

def Volume.clustersOf (v : Volume) (size : ℕ) : ℕ :=
  max 1 ((size + v.bytesPerCluster - 1) / v.bytesPerCluster)

def Volume.Sized (v : Volume) : Prop :=
  ∀ d, v.forest.Directory d → ∀ e ∈ v.entries d, e.isDirectory = false →
    (v.chain e.firstCluster).length = v.clustersOf e.size

/-- A tidy volume with files of the right lengths. -/
structure Volume.Exact (v : Volume) : Prop extends v.Tidy where
  sized : v.Sized

/-- There are clusters for a chain of some length and for its entry, which has
no name of a deleted one. -/
def Volume.Room (free count : ℕ) (path : CString) : Prop :=
  (filenameToFat32 (fileName path)).head? ≠ some 0xE5 ∧ count + 1 ≤ free

/-- A call finds enough free clusters or none. -/
def Call.Fits (v : Volume) : Call → Prop
  | write path _ size =>
      (∀ e d, findFile v path = .ok (some (e, d)) → v.Deletable e) ∧
        size + v.bytesPerCluster ≤ 4294967296 ∧
        (v.freeClusters.card + v.released path = 0 ∨
          Volume.Room (v.freeClusters.card + v.released path)
            (v.clustersOf size) path)
  | createDirectory path =>
      v.freeClusters.card = 0 ∨ Volume.Room v.freeClusters.card 1 path
  | delete _ => True

section

variable {v w next : Volume} {d x first size written : ℕ} {e : Entry}
  {path name : CString} {cs extra : List ℕ} {buffer : ByteStore}
  {made done : Bool} {calls : List Call} {entries clusters : Set ℕ}

theorem Volume.Frame.clustersOf
    (h : v.Frame w entries clusters) (size : ℕ) :
    w.clustersOf size = v.clustersOf size := by
  unfold Volume.clustersOf
  rw [h.bytesPerCluster]

/-! ## Sizes -/

theorem Takes.sized
    (h : Takes v w first cs) (hsound : v.Sound) (hsized : v.Sized) :
    w.Sized := by
  have hagrees := (h.sound hsound).2
  intro y hy f hf hfile
  rw [hagrees.directory_iff] at hy
  rw [← forest_items, hagrees.items y hy] at hf
  have howned : v.forest.Owned f.firstCluster := Forest.owned_of_mem hy hf
  rw [h.owned_chain hsound howned, h.frame.clustersOf]
  exact hsized y hy f hf hfile

theorem Deletes.sized
    (hdel : Deletes v next d e) (hsound : v.Sound)
    (hd : v.forest.Directory d) (he : e ∈ v.entries d)
    (hempty : v.Deletable e) (hsized : v.Sized) : next.Sized := by
  have hadds := (hdel.removes hsound hd he hempty).adds hsound.tree
  have howned : v.forest.Owned e.firstCluster := Forest.owned_of_mem hd he
  intro y hy f hf hfile
  have hyv : v.forest.Directory y := hadds.directory_iff.2 (.inl hy)
  have hfv : f ∈ v.entries y := (hadds.mem_items hy).2 (.inl hf)
  have hne : f.firstCluster ≠ e.firstCluster := by
    intro hsame
    refine hadds.fresh ?_
    rw [forest_target, ← hsame]
    exact Forest.owned_of_mem hy hf
  have hfowned : v.forest.Owned f.firstCluster := Forest.owned_of_mem hyv hfv
  have hchain := ((hsound.ends _ hfowned).frame hdel.frame hsound.geometry
    fun t ht hfreed => hsound.disjoint _ _ hfowned howned hne ht hfreed).2
  rw [hchain, hdel.frame.clustersOf]
  exact hsized y hyv f hfv hfile

theorem Inserts.sized
    (hinserts : Inserts v next d e extra) (hsound : v.Sound)
    (hd : v.forest.Directory d) (hadmits : v.Admits e)
    (hkept : e.isDeleted = false) (hsized : v.Sized)
    (hnew : e.isDirectory = false →
      (v.chain e.firstCluster).length = v.clustersOf e.size) :
    next.Sized := by
  have hadds := hinserts.adds hsound hd hadmits hkept
  intro y hy f hf hfile
  rw [hinserts.frame.clustersOf]
  rcases hadds.item_cases hy hf with ⟨hold, hkeep⟩ | ⟨-, rfl⟩
  · have hne : f.firstCluster ≠ d := by
      rintro rfl
      have hinner := hsound.tree.inner_of_directory hold hkeep hd
      rw [forest_inner, hfile] at hinner
      cases hinner
    have howned : v.forest.Owned f.firstCluster :=
      Forest.owned_of_mem hold hkeep
    rw [hinserts.chain_of hsound hd (.inl howned) hne]
    exact hsized y hold f hkeep hfile
  · have hne : f.firstCluster ≠ d := by
      intro hsame
      exact hadmits.loose.not_owned hsound (hsame ▸ hd.owned)
    rw [hinserts.chain_of hsound hd (.inr hadmits.loose) hne]
    exact hnew hfile

/-! ## Deleting -/

theorem Releases.exact
    (h : Releases v path done next) (hexact : v.Exact) (hpath : Named path) :
    next.Exact where
  toWellFormed := h.wellFormed hexact.toWellFormed hpath
  cursor := h.cursor hexact.cursor
  accounted := h.accounted hexact.toSound hpath hexact.accounted
  sized := by
    cases h with
    | missing _ => exact hexact.sized
    | occupied _ _ => exact hexact.sized
    | released hlookup hempty hdel =>
        obtain ⟨hfront, hentry⟩ := (Volume.lookup_eq_some hpath.name).1 hlookup
        exact hdel.sized hexact.toSound
          (Forest.directory_of_enter v.directory_root hfront)
          (Forest.find_eq_some hentry).1 hempty hexact.sized

/-! ## A new file or directory -/

section

variable {front : List (List UInt8)} (hexact : v.Exact)
  (hfront : v.forest.enter v.rootCluster front = some d)

include hexact hfront

/-- A new chain with the clusters that its entry asks for. -/
theorem Takes.exact
    (h : Takes v w first cs) (hnew : v.forest.find d e.name = none)
    (hadmits : w.Admits e) (hkept : e.isDeleted = false)
    (hfirst : e.firstCluster = first)
    (hlength : e.isDirectory = false → cs.length = v.clustersOf e.size)
    (hplaces : Places w next d e extra) : next.Exact := by
  have hinserts := hplaces.inserts
  have hd := Forest.directory_of_enter v.directory_root hfront
  obtain ⟨hsound, hagrees⟩ := h.sound hexact.toSound
  have hwd := hagrees.directory_iff.2 hd
  refine ⟨⟨(h.enters hexact.toWellFormed hfront hnew hadmits hkept
    hinserts).1, ?_, ?_⟩, ?_⟩
  · rw [hinserts.frame.bpb]
    refine hinserts.frame.cursor ?_
    rw [h.frame.bpb]
    exact h.frame.cursor hexact.cursor
  · exact h.accounted hexact.toSound hwd hinserts hadmits hkept hfirst
      hexact.accounted
  · refine hinserts.sized hsound hwd hadmits hkept
      (h.sized hexact.toSound hexact.sized) fun hfile => ?_
    rw [hfirst, h.chain_eq.2, h.frame.clustersOf]
    exact hlength hfile

theorem Writes.exact
    (h : Writes v d name buffer size written next)
    (hnew : v.forest.find d (filenameToFat32 name) = none) (hname : 0 ∉ name)
    (hfit : size + v.bytesPerCluster ≤ 4294967296)
    (hroom : v.freeClusters.card = 0 ∨
      (filenameToFat32 name).head? ≠ some 0xE5 ∧
        v.clustersOf size + 1 ≤ v.freeClusters.card) : next.Exact := by
  have hneeded : v.needed size = v.clustersOf size :=
    needed_eq hexact.geometry hfit
  have htaken : ∀ {w first cs}, Takes v w first cs →
      cs.length = min (v.needed size) v.freeClusters.card →
      (filenameToFat32 name).head? ≠ some 0xE5 ∧
        cs.length = v.clustersOf size ∧ 0 < w.freeClusters.card := by
    intro w first cs htakes hlength
    have hleft := htakes.card_free hexact.geometry
    have hpos := List.length_pos_of_mem htakes.first
    rcases hroom with hnone | ⟨hhead, hroom⟩
    · omega
    · exact ⟨hhead, by omega, by omega⟩
  cases h with
  | full _ => exact hexact
  | short hsome hshort _ =>
      rcases hroom with hnone | ⟨-, hroom⟩
      · omega
      · omega
  | @stored w next first cs extra hstores hlength _ hplaces =>
      obtain ⟨hhead, hcount, -⟩ := htaken hstores.toTakes hlength
      have hentry := newEntry_name name 0x20 first size
      have hpos := bytesPerCluster_pos hexact.geometry
      have hkept : (newEntry name 0x20 first size).isDeleted = false := by
        rw [Bool.eq_false_iff, ne_eq, Entry.isDeleted_iff, hentry]
        exact hhead
      rw [← hentry] at hnew
      refine hstores.toTakes.exact hexact hfront hnew
        (hstores.admits_file hexact.toSound hname) hkept
        (newEntry_firstCluster (hstores.firstCluster_lt hexact.geometry))
        (fun _ => ?_) hplaces
      rw [newEntry_size (by omega)]
      exact hcount
  | @dropped w first cs hstores hlength _ _ hfull =>
      have hleft := (htaken hstores.toTakes hlength).2.2
      rw [Volume.card_freeClusters_eq_zero.2 hfull] at hleft
      exact absurd hleft (Nat.lt_irrefl 0)

theorem Makes.exact
    (h : Makes v d name made next)
    (hnew : v.forest.find d (filenameToFat32 name) = none) (hname : 0 ∉ name)
    (hroom : v.freeClusters.card = 0 ∨
      (filenameToFat32 name).head? ≠ some 0xE5 ∧
        1 + 1 ≤ v.freeClusters.card) : next.Exact := by
  have htaken : ∀ {w cluster}, Takes v w cluster [cluster] →
      (filenameToFat32 name).head? ≠ some 0xE5 ∧ 0 < w.freeClusters.card := by
    intro w cluster htakes
    have hleft := htakes.card_free hexact.geometry
    rw [List.length_singleton] at hleft
    rcases hroom with hnone | ⟨hhead, hroom⟩
    · omega
    · exact ⟨hhead, by omega⟩
  cases h with
  | full _ => exact hexact
  | @stored w next cluster extra htakes hempty hclosed hplaces =>
      have hentry := newEntry_name name 0x10 cluster 0
      have hkept : (newEntry name 0x10 cluster 0).isDeleted = false := by
        rw [Bool.eq_false_iff, ne_eq, Entry.isDeleted_iff, hentry]
        exact (htaken htakes).1
      have hinner : (newEntry name 0x10 cluster 0).isDirectory = true :=
        newEntry_isDirectory (by norm_num)
      rw [← hentry] at hnew
      refine htakes.exact hexact hfront hnew
        (htakes.admits_directory hexact.toSound hname hempty hclosed) hkept
        (newEntry_firstCluster (htakes.firstCluster_lt hexact.geometry))
        (fun hfile => ?_) hplaces
      rw [hinner] at hfile
      cases hfile
  | dropped htakes _ hfull =>
      have hleft := (htaken htakes).2
      rw [Volume.card_freeClusters_eq_zero.2 hfull] at hleft
      exact absurd hleft (Nat.lt_irrefl 0)

end

/-! ## Runs -/

theorem Call.run_exact
    (hexact : v.Exact) (call : Call) (hpath : Named call.path)
    (hfits : call.Fits v) :
    ∃ next, call.run v = .ok next ∧ next.Exact := by
  have hsound := hexact.toSound
  cases call with
  | write path buffer size =>
      have hnamed : Named path := hpath
      obtain ⟨hspares, hfit, hroom⟩ := hfits
      have hdeletable : ∀ e y, v.lookup path = some (e, y) → v.Deletable e :=
        fun e y hlookup => hspares e y (by
          rw [hexact.findFile_eq hnamed.length, hlookup])
      rcases fat32WriteFile_cases hsound hexact.cursor hnamed buffer size with
        ⟨-, hwrite⟩ | ⟨d, done, mid, written, next, hfront, -, hreleases, -, -,
          hwrite, hwrites⟩
      · exact ⟨v, by rw [run, hwrite]; rfl, hexact⟩
      · refine ⟨next, by rw [run, hwrite]; rfl, ?_⟩
        refine hwrites.exact (hreleases.exact hexact hnamed)
          (hreleases.parent hexact.toWellFormed hnamed hfront)
          (hreleases.find_eq_none hexact.toWellFormed hnamed hfront hdeletable)
          hnamed.text_name ?_ ?_
        · rw [hreleases.frame.bytesPerCluster]
          exact hfit
        · rw [hreleases.card_free hsound hnamed, hreleases.frame.clustersOf]
          exact hroom
  | createDirectory path =>
      have hnamed : Named path := hpath
      rcases fat32CreateDirectory_cases hsound hexact.cursor hnamed with
        ⟨-, hmake⟩ | ⟨-, hmake⟩ | ⟨d, made, next, hnone, hfront, hmake, hmakes⟩
      · exact ⟨v, by rw [run, hmake]; rfl, hexact⟩
      · exact ⟨v, by rw [run, hmake]; rfl, hexact⟩
      · exact ⟨next, by rw [run, hmake]; rfl, hmakes.exact hexact hfront
          (Volume.find_eq_none_of_lookup hnamed.name hnone hfront)
          hnamed.text_name hfits⟩
  | delete path =>
      have hnamed : Named path := hpath
      obtain ⟨done, next, hdelete, hreleases⟩ :=
        fat32Delete_releases hsound hnamed
      exact ⟨next, by rw [run, hdelete]; rfl, hreleases.exact hexact hnamed⟩

/-- After a run of calls that find enough free clusters or none, every file of some
bytes has the clusters that the bytes fill, and every linked cluster is on the chain
of one file or directory. -/
theorem runCalls_exact
    (hexact : v.Exact) (hnamed : ∀ call ∈ calls, Named call.path)
    (hfits : MeetsAlong (fun w call => call.Fits w) calls v) :
    ∃ next, runCalls calls v = .ok next ∧
      (∀ d, next.forest.Directory d → ∀ e ∈ next.entries d,
        e.isDirectory = false → (next.chain e.firstCluster).length =
          max 1 ((e.size + next.bytesPerCluster - 1) /
            next.bytesPerCluster)) ∧
      ∀ x, next.bpb.Has x → next.link x ≠ 0 →
        ∃! y, next.forest.Owned y ∧ x ∈ next.chain y := by
  obtain ⟨next, hrun, hnext⟩ := runCalls_along
    (fun w call hmem hw hfit => call.run_exact hw (hnamed call hmem) hfit)
    hfits hexact
  refine ⟨next, hrun, hnext.sized, fun x hx hlink => ?_⟩
  have howned : ∃ y, next.forest.Owned y ∧ x ∈ next.chain y := by
    by_contra hnone
    refine hlink (hnext.accounted x hx fun y hy hmem => hnone ⟨y, hy, hmem⟩)
  obtain ⟨y, hy, hmem⟩ := howned
  refine ⟨y, ⟨hy, hmem⟩, fun z hz => ?_⟩
  by_contra hne
  exact hnext.disjoint z y hz.1 hy hne hz.2 hmem

end

theorem oneFile_exact : oneFile.Exact where
  toTidy := oneFile_tidy
  sized := by
    have hlist : ∀ d ∈ [2], ∀ e ∈ oneFile.entries d, e.isDirectory = false →
        (oneFile.chain e.firstCluster).length =
          oneFile.clustersOf e.size := by
      decide +kernel
    exact fun d hd => hlist d
      (Forest.directory_mem oneFile_listed.root oneFile_listed.inner hd)

/-- The file `B` is written beside `A`, and `A` is deleted. -/
theorem runCalls_exact_oneFile :
    ∃ next, runCalls [.write [66] (fun _ => 7) 100, .delete [65]] oneFile =
        .ok next ∧
      (∀ d, next.forest.Directory d → ∀ e ∈ next.entries d,
        e.isDirectory = false → (next.chain e.firstCluster).length =
          max 1 ((e.size + next.bytesPerCluster - 1) /
            next.bytesPerCluster)) ∧
      ∀ x, next.bpb.Has x → next.link x ≠ 0 →
        ∃! y, next.forest.Owned y ∧ x ∈ next.chain y := by
  have hfits : Call.Fits oneFile (.write [66] (fun _ => 7) 100) := by
    refine ⟨threeCalls_spares.1, by decide +kernel, .inr ⟨by decide, ?_⟩⟩
    decide +kernel
  refine runCalls_exact oneFile_exact (fun call hcall => ?_)
    ⟨hfits, fun _ _ => ⟨trivial, fun _ _ => trivial⟩⟩
  refine threeCalls_named call ?_
  simp only [List.mem_cons, List.not_mem_nil, or_false] at hcall
  rcases hcall with rfl | rfl <;> simp [threeCalls]

end ClOs.Fat32
