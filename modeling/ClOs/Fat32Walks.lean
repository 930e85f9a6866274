import ClOs.Fat32Paths
import ClOs.ReturningWalks

/-!
# Endless walks along directory clusters

Lookup, insertion and the emptiness scan follow the links of a directory until
a cluster answers or the chain ends.  Nothing stops them on a chain that comes
back to a cluster without an answer.
-/

namespace ClOs.Fat32

open ByteStore

namespace Volume

/-- A walk goes on from `cluster` to `next`: the cluster is on the volume, its
bytes hold no answer, and `next` is its link. -/
def LeadsOn (v : Volume) (passes : ByteStore → Prop)
    (cluster next : ℕ) : Prop :=
  IsCluster cluster ∧
    (∃ buffer, readCluster v cluster = .ok buffer ∧ passes buffer.bytes) ∧
      getNextCluster v cluster = .ok next

/-- A cluster in which every slot is taken by an entry that is not `name`. -/
def Lacks (v : Volume) (name : List UInt8) (bytes : ByteStore) : Prop :=
  ∀ i < v.entriesPerCluster, (entryAt bytes i).isEnd = false ∧
    ((entryAt bytes i).isDeleted = true ∨ (entryAt bytes i).isLongName = true ∨
      (entryAt bytes i).name ≠ name)

/-- A cluster without a free slot. -/
def Full (v : Volume) (bytes : ByteStore) : Prop :=
  ∀ i < v.entriesPerCluster, (entryAt bytes i).isEnd = false ∧
    (entryAt bytes i).isDeleted = false

/-- A cluster with nothing but deleted entries and the entries `.` and `..` in
front of its end marker. -/
def Vacant (v : Volume) (bytes : ByteStore) : Prop :=
  ∀ i < v.entriesPerCluster,
    (∀ j < i, (entryAt bytes j).isEnd = false) →
      (entryAt bytes i).isEnd = true ∨ (entryAt bytes i).isDeleted = true ∨
        (entryAt bytes i).name ∈ dotNames

instance (v : Volume) (name : List UInt8) : DecidablePred (v.Lacks name) :=
  fun _ => inferInstanceAs (Decidable (∀ i < _, _))

instance (v : Volume) : DecidablePred v.Full :=
  fun _ => inferInstanceAs (Decidable (∀ i < _, _))

instance (v : Volume) : DecidablePred v.Vacant :=
  fun _ => inferInstanceAs (Decidable (∀ i < _, _))

end Volume

variable {v : Volume} {cluster last next : ℕ} {α : Type}
  {visit : ℕ → Buffer → Outcome (Option α)} {passes : ByteStore → Prop}

theorem buffer_load_not_endless
    (buffer : Buffer) (offset : ℕ) (source : ByteStore) (count : ℕ) :
    buffer.load offset source count ≠ .error .endless := by
  unfold Buffer.load Buffer.check
  split_ifs <;> simp [bind, Except.bind, pure, Except.pure]

theorem loadSectors_not_endless (v : Volume) (size lba count : ℕ) :
    loadSectors v size lba count ≠ .error .endless :=
  buffer_load_not_endless _ _ _ _

theorem fatPlace_not_endless (v : Volume) (copy cluster : ℕ) :
    fatPlace v copy cluster ≠ .error .endless := by
  unfold fatPlace
  split_ifs <;> simp

theorem get32_not_endless (buffer : Buffer) (offset : ℕ) :
    buffer.get32 offset ≠ .error .endless := by
  unfold Buffer.get32 Buffer.check
  split_ifs <;> simp [bind, Except.bind, pure, Except.pure]

theorem getNextCluster_not_endless (v : Volume) (cluster : ℕ) :
    getNextCluster v cluster ≠ .error .endless := by
  intro h
  unfold getNextCluster at h
  rw [Outcome.bind_eq_error] at h
  rcases h with hplace | ⟨⟨sector, offset⟩, -, h⟩
  · exact fatPlace_not_endless _ _ _ hplace
  rw [Outcome.bind_eq_error] at h
  rcases h with hload | ⟨buffer, -, h⟩
  · exact loadSectors_not_endless _ _ _ _ hload
  rw [Outcome.bind_eq_error] at h
  rcases h with hword | ⟨entry, -, h⟩
  · exact get32_not_endless _ _ hword
  · cases h

/-- A walk with `fuel` steps runs out of them when it can make them all. -/
theorem walkChain_endless
    (hvisit : ∀ cluster buffer, visit cluster buffer ≠ .error .endless)
    (hpasses : ∀ cluster buffer,
      visit cluster buffer = .ok none ↔ passes buffer.bytes)
    (fuel last cluster : ℕ) :
    walkChain v visit fuel last cluster = .error .endless ↔
      WalksOn (v.LeadsOn passes) fuel cluster := by
  induction fuel generalizing last cluster with
  | zero => simp [walkChain, WalksOn]
  | succ fuel ih =>
      rw [walkChain, WalksOn]
      by_cases hcluster : IsCluster cluster
      · rw [if_pos hcluster]
        constructor
        · intro h
          rw [Outcome.bind_eq_error] at h
          rcases h with hread | ⟨buffer, hread, h⟩
          · exact absurd hread (loadSectors_not_endless _ _ _ _)
          rw [Outcome.bind_eq_error] at h
          rcases h with hvisited | ⟨answer, hvisited, h⟩
          · exact absurd hvisited (hvisit _ _)
          cases answer with
          | some answer => cases h
          | none =>
              simp only at h
              rw [Outcome.bind_eq_error] at h
              rcases h with hlink | ⟨next, hlink, h⟩
              · exact absurd hlink (getNextCluster_not_endless _ _)
              · exact ⟨next, ⟨hcluster, ⟨buffer, hread,
                  (hpasses _ _).1 hvisited⟩, hlink⟩, (ih _ _).1 h⟩
        · rintro ⟨next, ⟨-, ⟨buffer, hread, hpass⟩, hlink⟩, hrest⟩
          simp only [hread, (hpasses _ _).2 hpass, hlink, bind, Except.bind]
          exact (ih _ _).2 hrest
      · rw [if_neg hcluster]
        constructor
        · intro h
          cases h
        · rintro ⟨next, ⟨hother, -⟩, -⟩
          exact absurd hother hcluster

/-- There are fewer clusters than steps. -/
theorem walksOn_chainFuel_iff :
    WalksOn (v.LeadsOn passes) chainFuel cluster ↔
      ComesBack (v.LeadsOn passes) cluster := by
  have hsources : ∀ node next, v.LeadsOn passes node next →
      node ∈ Finset.Ico 2 0x0FFFFFF8 :=
    fun node next hleads => Finset.mem_Ico.2 hleads.1
  refine walksOn_iff_comesBack hsources ?_
  rw [Nat.card_Ico]
  unfold chainFuel
  norm_num

theorem walkChain_endless_iff
    (hvisit : ∀ cluster buffer, visit cluster buffer ≠ .error .endless)
    (hpasses : ∀ cluster buffer,
      visit cluster buffer = .ok none ↔ passes buffer.bytes)
    (cluster : ℕ) :
    walkChain v visit chainFuel cluster cluster = .error .endless ↔
      ComesBack (v.LeadsOn passes) cluster := by
  rw [walkChain_endless hvisit hpasses, walksOn_chainFuel_iff]

theorem firstEntry_eq_none
    {bytes : ByteStore} {accept : Entry → Bool} :
    firstEntry v bytes accept = none ↔
      ∀ i < v.entriesPerCluster, accept (entryAt bytes i) = false := by
  unfold firstEntry
  simp [List.find?_eq_none]

theorem firstEntry_eq_some
    {bytes : ByteStore} {accept : Entry → Bool} {i : ℕ} :
    firstEntry v bytes accept = some i ↔
      i < v.entriesPerCluster ∧ accept (entryAt bytes i) = true ∧
        ∀ j < i, accept (entryAt bytes j) = false := by
  unfold firstEntry
  rw [List.find?_range_eq_some]
  simp [and_left_comm]

/-! ## The walks -/

theorem findEntryInCluster_endless_iff
    (v : Volume) (cluster : ℕ) (name : List UInt8) :
    findEntryInCluster v cluster name = .error .endless ↔
      ComesBack (v.LeadsOn (v.Lacks name)) cluster := by
  unfold findEntryInCluster
  simp only
  rw [Outcome.bind_eq_error, or_iff_left, walkChain_endless_iff]
  · intro cluster buffer
    split
    · simp
    · split <;> simp
  · intro cluster buffer
    unfold Volume.Lacks
    split
    next hnone =>
      rw [firstEntry_eq_none] at hnone
      refine iff_of_true rfl fun i hi => ?_
      have hpass := hnone i hi
      simp only [Bool.or_eq_false_iff, Bool.and_eq_false_iff,
        Bool.not_eq_false', decide_eq_false_iff_not] at hpass
      tauto
    next i hsome =>
      obtain ⟨hi, haccept, -⟩ := firstEntry_eq_some.1 hsome
      refine iff_of_false (by split <;> simp) fun hlacks => ?_
      obtain ⟨hlive, hother⟩ := hlacks i hi
      simp only [hlive, Bool.false_or, Bool.and_eq_true, Bool.not_eq_true',
        decide_eq_true_eq] at haccept
      rcases hother with hdeleted | hlong | hname
      · rw [haccept.1.1] at hdeleted
        cases hdeleted
      · rw [haccept.1.2] at hlong
        cases hlong
      · exact hname haccept.2
  · rintro ⟨result, -, hresult⟩
    cases result <;> cases hresult

theorem hasEntries_endless_iff (v : Volume) (cluster : ℕ) :
    hasEntries v cluster = .error .endless ↔
      ComesBack (v.LeadsOn v.Vacant) cluster := by
  unfold hasEntries
  simp only
  rw [Outcome.bind_eq_error, or_iff_left, walkChain_endless_iff]
  · intro cluster buffer
    split
    · simp
    · split <;> simp
  · intro cluster buffer
    unfold Volume.Vacant
    split
    next hnone =>
      rw [firstEntry_eq_none] at hnone
      refine iff_of_true rfl fun i hi _ => ?_
      have hpass := hnone i hi
      simp only [Bool.or_eq_false_iff, Bool.and_eq_false_iff,
        Bool.not_eq_false', decide_eq_false_iff_not, not_not] at hpass
      exact .inr hpass.2
    next i hsome =>
      obtain ⟨hi, haccept, hbefore⟩ := firstEntry_eq_some.1 hsome
      by_cases hend : (entryAt buffer.bytes i).isEnd = true
      · rw [if_pos hend]
        refine iff_of_true rfl fun k hk hlive => ?_
        rcases Nat.lt_trichotomy k i with hlt | rfl | hgt
        · have hpass := hbefore k hlt
          simp only [Bool.or_eq_false_iff, Bool.and_eq_false_iff,
            Bool.not_eq_false', decide_eq_false_iff_not, not_not] at hpass
          exact .inr hpass.2
        · exact .inl hend
        · rw [hlive i hgt] at hend
          cases hend
      · rw [if_neg hend]
        refine iff_of_false (by simp) fun hvacant => ?_
        have hlive : ∀ j < i, (entryAt buffer.bytes j).isEnd = false := by
          intro j hj
          have hpass := hbefore j hj
          rw [Bool.or_eq_false_iff] at hpass
          exact hpass.1
        rw [Bool.not_eq_true] at hend
        simp only [hend, Bool.false_or, Bool.and_eq_true, Bool.not_eq_true',
          decide_eq_true_eq] at haccept
        rcases hvacant i hi hlive with hmarker | hdeleted | hdot
        · rw [hend] at hmarker
          cases hmarker
        · rw [haccept.1] at hdeleted
          cases hdeleted
        · exact haccept.2 hdot
  · rintro ⟨result, -, hresult⟩
    cases result <;> cases hresult

/-- The search for a free cluster ends: it makes a fixed number of rounds. -/
theorem findFreeCluster_not_endless (v : Volume) :
    findFreeCluster v ≠ .error .endless := by
  have hsearch : ∀ total count cursor,
      searchFree v total count cursor ≠ .error .endless := by
    intro total count
    induction count with
    | zero => intro cursor h; cases h
    | succ count ih =>
        intro cursor h
        rw [searchFree, Outcome.bind_eq_error] at h
        rcases h with hlink | ⟨link, -, h⟩
        · exact getNextCluster_not_endless _ _ hlink
        · split_ifs at h
          · cases h
          · exact ih _ h
  intro h
  unfold findFreeCluster at h
  rw [Outcome.bind_eq_error] at h
  rcases h with htotal | ⟨total, -, h⟩
  · unfold totalClusters at htotal
    simp only at htotal
    split_ifs at htotal
    cases htotal
  · rw [Outcome.bind_eq_error] at h
    rcases h with hfound | ⟨⟨cluster, cursor⟩, -, h⟩
    · exact hsearch _ _ _ hfound
    · cases h

theorem setNextCluster_not_endless (v : Volume) (cluster next : ℕ) :
    setNextCluster v cluster next ≠ .error .endless := by
  unfold setNextCluster
  generalize List.range v.bpb.fatCount = copies
  induction copies generalizing v with
  | nil => intro h; cases h
  | cons copy rest ih =>
      intro h
      rw [List.foldlM_cons, Outcome.bind_eq_error] at h
      rcases h with hcopy | ⟨stored, -, h⟩
      · unfold setNextInCopy at hcopy
        rw [Outcome.bind_eq_error] at hcopy
        rcases hcopy with hplace | ⟨⟨sector, offset⟩, -, hcopy⟩
        · exact fatPlace_not_endless _ _ _ hplace
        rw [Outcome.bind_eq_error] at hcopy
        rcases hcopy with hload | ⟨buffer, -, hcopy⟩
        · exact loadSectors_not_endless _ _ _ _ hload
        rw [Outcome.bind_eq_error] at hcopy
        rcases hcopy with hword | ⟨current, -, hcopy⟩
        · exact get32_not_endless _ _ hword
        · cases hcopy
      · exact ih stored h

theorem clusterOf_not_endless (v : Volume) (entries : List Entry) :
    clusterOf v entries ≠ .error .endless := by
  have hfold : ∀ (slots : List (Entry × ℕ)) (buffer : Buffer),
      slots.foldlM (fun buffer entry =>
        Buffer.load buffer (32 * entry.2) entry.1 32) buffer ≠
          .error .endless := by
    intro slots
    induction slots with
    | nil => intro buffer h; cases h
    | cons slot rest ih =>
        intro buffer h
        rw [List.foldlM_cons, Outcome.bind_eq_error] at h
        rcases h with hload | ⟨loaded, -, h⟩
        · exact buffer_load_not_endless _ _ _ _ hload
        · exact ih loaded h
  intro h
  unfold clusterOf at h
  rw [Outcome.bind_eq_error] at h
  rcases h with hfilled | ⟨filled, -, h⟩
  · exact hfold _ _ hfilled
  · unfold Buffer.slice Buffer.check at h
    split_ifs at h <;> simp [bind, Except.bind, pure, Except.pure] at h

theorem createDirEntry_endless_iff
    (v : Volume) (cluster : ℕ) (name : CString) (attrs first size : ℕ) :
    createDirEntry v cluster name attrs first size = .error .endless ↔
      ComesBack (v.LeadsOn v.Full)
        (if cluster = 0 then v.rootCluster else cluster) := by
  unfold createDirEntry
  simp only
  rw [Outcome.bind_eq_error, or_iff_left, walkChain_endless_iff]
  · intro cluster buffer
    split
    · simp
    · simp
  · intro cluster buffer
    unfold Volume.Full
    split
    next hnone =>
      rw [firstEntry_eq_none] at hnone
      refine iff_of_true rfl fun i hi => ?_
      simpa using hnone i hi
    next i hsome =>
      obtain ⟨hi, haccept, -⟩ := firstEntry_eq_some.1 hsome
      refine iff_of_false (by simp) fun hfull => ?_
      obtain ⟨hlive, hkept⟩ := hfull i hi
      rw [hlive, hkept] at haccept
      cases haccept
  · rintro ⟨result, -, hresult⟩
    cases result with
    | inl next => cases hresult
    | inr last =>
        simp only at hresult
        rw [Outcome.bind_eq_error] at hresult
        rcases hresult with hfree | ⟨⟨newCluster, found⟩, -, hresult⟩
        · exact findFreeCluster_not_endless _ hfree
        simp only at hresult
        split_ifs at hresult
        · cases hresult
        rw [Outcome.bind_eq_error] at hresult
        rcases hresult with hlink | ⟨linked, -, hresult⟩
        · exact setNextCluster_not_endless _ _ _ hlink
        rw [Outcome.bind_eq_error] at hresult
        rcases hresult with hend | ⟨ended, -, hresult⟩
        · exact setNextCluster_not_endless _ _ _ hend
        rw [Outcome.bind_eq_error] at hresult
        rcases hresult with hbytes | ⟨bytes, -, hresult⟩
        · exact clusterOf_not_endless _ _ hbytes
        · cases hresult

def pathLookups (v : Volume) (path : CString) : List (ℕ × CString) :=
  lookups (findToken v) enterEntry v.rootCluster (components path)

theorem findFile_endless_iff (v : Volume) (path : CString) :
    findFile v path = .error .endless ↔
      (dropSlash path).length < 256 ∧ ∃ t ∈ pathLookups v path,
        ComesBack (v.LeadsOn (v.Lacks (filenameToFat32 t.2))) t.1 := by
  by_cases hlength : (dropSlash path).length < 256
  · have henter : ∀ entry, enterEntry entry ≠ .error .endless :=
      fun entry h => by cases h
    rw [findFile_eq_lookupPath hlength, and_iff_right hlength]
    unfold lookupPath pathLookups
    split_ifs with hnames
    · rw [hnames]
      simp [lookups, pure, Except.pure]
    · rw [Outcome.bind_eq_error, or_iff_left, walkNames_eq_error henter]
      · exact exists_congr fun t => and_congr_right fun _ =>
          findEntryInCluster_endless_iff _ _ _
      · rintro ⟨found, -, hfound⟩
        cases found <;> cases hfound
  · refine iff_of_false ?_ fun h => hlength h.1
    have hcopy : copyPath path = .error .outOfBounds := if_neg hlength
    unfold findFile
    simp [hcopy, bind, Except.bind]

/-- A walk ends exactly when its chain does not come back to a cluster without
an answer. -/
theorem walks_end_iff (v : Volume) :
    (∀ cluster name, findEntryInCluster v cluster name ≠ .error .endless ↔
      ¬ComesBack (v.LeadsOn (v.Lacks name)) cluster) ∧
    (∀ path, findFile v path ≠ .error .endless ↔
      (dropSlash path).length < 256 → ∀ t ∈ pathLookups v path,
        ¬ComesBack (v.LeadsOn (v.Lacks (filenameToFat32 t.2))) t.1) ∧
    (∀ cluster name attrs first size,
      createDirEntry v cluster name attrs first size ≠ .error .endless ↔
        ¬ComesBack (v.LeadsOn v.Full)
          (if cluster = 0 then v.rootCluster else cluster)) ∧
    ∀ cluster, hasEntries v cluster ≠ .error .endless ↔
      ¬ComesBack (v.LeadsOn v.Vacant) cluster := by
  refine ⟨fun cluster name =>
      not_congr (findEntryInCluster_endless_iff v cluster name), fun path => ?_,
    fun cluster name attrs first size =>
      not_congr (createDirEntry_endless_iff v cluster name attrs first size),
    fun cluster => not_congr (hasEntries_endless_iff v cluster)⟩
  rw [ne_eq, not_congr (findFile_endless_iff v path)]
  push Not
  rfl

/-! ## A circular directory -/

/-- A volume whose root directory consists of cluster 2, which is its own link
and full of entries: the directory `d` and fifteen entries `AAAAAAAAAAA`.  The
directory `d` consists of cluster 3, which is its own link as well and full of
deleted entries. -/
def circular : Volume where
  bpb := ofWords [(12, 0x00010102), (16, 0x10000001), (36, 1), (44, 2)]
  disk k :=
    if k < 1056 then ofWords [(520, 2), (524, 3), (1024, 0x20202044),
      (1028, 0x20202020), (1032, 0x10202020), (1048, 0x00030000)] k
    else if k < 1536 then 65 else 0xE5
  lastFreeCluster := 2
  garbage _ := 0

theorem comesBack_of_self
    [DecidablePred passes]
    (hcluster : IsCluster cluster)
    (hread : (readCluster v cluster).satisfies
      (fun buffer => decide (passes buffer.bytes)) = true)
    (hlink : (getNextCluster v cluster).satisfies
      (fun next => decide (next = cluster)) = true) :
    ComesBack (v.LeadsOn passes) cluster := by
  obtain ⟨buffer, hbuffer, hpass⟩ := Outcome.exists_of_satisfies hread
  obtain ⟨next, hnext, hsame⟩ := Outcome.exists_of_satisfies hlink
  rw [of_decide_eq_true hsame] at hnext
  exact ⟨cluster, .refl, .single
    ⟨hcluster, ⟨buffer, hbuffer, of_decide_eq_true hpass⟩, hnext⟩⟩

/-- The three walks on that volume do not end. -/
theorem circular_endless :
    findFile circular [47, 120] = .error .endless ∧
      createDirEntry circular 2 [120] 0x20 0 0 = .error .endless ∧
      fat32Delete circular [47, 100] = .error .endless := by
  have hlookup : ComesBack
      (circular.LeadsOn (circular.Lacks (filenameToFat32 [120]))) 2 :=
    comesBack_of_self (by decide) (by decide +kernel) (by decide +kernel)
  have hfull : ComesBack (circular.LeadsOn circular.Full) 2 :=
    comesBack_of_self (by decide) (by decide +kernel) (by decide +kernel)
  have hvacant : ComesBack (circular.LeadsOn circular.Vacant) 3 :=
    comesBack_of_self (by decide) (by decide +kernel) (by decide +kernel)
  have hroot : circular.rootCluster = 2 := by decide +kernel
  have hfound : (findFile circular [47, 100]).satisfies (fun found =>
      found.any (fun pair => decide (pair.1.isDirectory = true ∧
        pair.1.firstCluster = 3))) = true := by
    decide +kernel
  obtain ⟨⟨entry, parent⟩, hfind, hentry⟩ :=
    Outcome.exists_some_of_satisfies hfound
  obtain ⟨hdirectory, hfirst⟩ := of_decide_eq_true hentry
  simp only at hdirectory hfirst
  refine ⟨?_, ?_, ?_⟩
  · have hnames : components [47, 120] = [[120]] := by decide
    have hmem : (2, [120]) ∈ pathLookups circular [47, 120] := by
      unfold pathLookups
      rw [hnames, hroot, lookups]
      exact List.mem_cons_self
    have hshort : (dropSlash [47, 120]).length < 256 := by decide
    exact (findFile_endless_iff circular [47, 120]).2
      ⟨hshort, (2, [120]), hmem, hlookup⟩
  · rw [createDirEntry_endless_iff, if_neg (by decide)]
    exact hfull
  · have hscan : isOccupied circular entry = .error .endless := by
      unfold isOccupied
      rw [if_pos hdirectory, hfirst, hasEntries_endless_iff]
      exact hvacant
    unfold fat32Delete
    rw [Outcome.bind_eq_error]
    refine .inr ⟨_, hfind, ?_⟩
    simp only
    rw [Outcome.bind_eq_error]
    exact .inl hscan

end ClOs.Fat32
