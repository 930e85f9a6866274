import ClOs.Ext3Deletion

/-!
# Paths after a deletion

An entry whose inode is 0 ends every walk over its directory.  So deleting an
entry hides those behind it, and a path survives exactly when it looks up
nothing there.
-/

namespace ClOs.Ext3

open ByteStore

/-- The offset at which `find_dir_entry` finds a name. -/
def findOffset (v : Volume) (number : ℕ) (name : CString) :
    Outcome (Option ℕ) := do
  let directory ← readInode v number
  match ← loadDirectory v directory (u32 (directory.size + v.blockSize)) with
  | none => return none
  | some buffer =>
      let (offset, found) ←
        walkDirectory buffer directory.size (hasName buffer name)
      return if found then some offset else none

theorem findOffset_eq
    {v : Volume} {number : ℕ} {inode : Inode} {offsets : List ℕ}
    {last : ℕ}
    (hsize : v.blockSize ≤ 65536)
    (hread : readInode v number = .ok inode)
    (h : Directory v inode offsets last)
    (name : CString) :
    findOffset v number name =
      .ok (offsets.find? (fun o => nameAt (dirBytes v inode) o = name)) := by
  obtain ⟨buffer, hload, hbuffer, hbytes⟩ := h.load hsize
  have hwalk := h.walk_eq hbuffer hbytes name
  unfold findOffset
  simp only [hread, hload, hwalk, bind, Except.bind]
  cases offsets.find? (fun o => nameAt (dirBytes v inode) o = name) <;> rfl

/-! ## The directory without the entry -/

theorem dirBytes_clearEntry
    {v : Volume} {disk : ByteStore} {d o : ℕ} {inode : Inode}
    {offsets : List ℕ} {last : ℕ}
    (hwf : WellFormed v)
    (hsame : SamePaths v disk)
    (hreach : Reach v d)
    (hread : readInode v d = .ok inode)
    (hdirectory : Directory v inode offsets last)
    (ho : o ∈ offsets) :
    dirBytes (v.withDisk (disk.put32 (dirAddress v inode o) 0)) inode =
      (dirBytes v inode).put32 o 0 := by
  have hpos := v.blockSize_pos
  have hinBlock := hdirectory.inBlock o ho
  obtain ⟨hblock, hfield⟩ := hdirectory.inDirectory hread ho
  have hplain := hsame.dirBytes hreach hread
  have hsplit := Nat.div_add_mod' o v.blockSize
  funext k
  have hksplit := Nat.div_add_mod' k v.blockSize
  have hkmod := Nat.mod_lt k hpos
  by_cases hk : o ≤ k ∧ k < o + 4
  · have hdiv : k / v.blockSize = o / v.blockSize := by
      apply Nat.div_eq_of_lt_le
      · omega
      · rw [Nat.succ_mul]
        omega
    have hmod : k % v.blockSize = o % v.blockSize + (k - o) := by
      rw [hdiv] at hksplit
      omega
    rw [put32_zero_inside _ hk.1 hk.2]
    simp only [dirBytes, Volume.withDisk_toGeometry, hdiv, hblock,
      Volume.withDisk_blockBase, Volume.withDisk_disk]
    unfold dirAddress
    exact put32_zero_inside _ (by omega) (by omega)
  · rw [put32_outside _ (by omega), ← hplain]
    simp only [dirBytes, Volume.withDisk_toGeometry,
      Volume.withDisk_blockBase, Volume.withDisk_disk]
    cases hother : inode.directBlocks[k / v.blockSize]? with
    | none => rfl
    | some block =>
        apply put32_outside
        by_contra hinside
        have hplace : InBlock v block
            (v.blockBase block + k % v.blockSize) := by
          unfold InBlock
          omega
        have hbase := hplace.same_base
          (hfield _ (by omega) (by omega)).1
        have hdiv := (hwf.blocksApart d d inode inode _ _ block _ hreach
          hreach hread hread hother hblock hbase).2
        have hblockEq := (inode.directBlocks_getElem? hother).1
        rw [hdiv] at hblockEq hksplit
        unfold dirAddress at hinside
        rw [hblockEq] at hinside
        omega

/-- The directory after the entry at `o` has gone: the walk ends there. -/
theorem Directory.clearEntry
    {v w : Volume} {inode : Inode} {front back : List ℕ} {o last : ℕ}
    (h : Directory v inode (front ++ o :: back) last)
    (hgeometry : w.toGeometry = v.toGeometry)
    (hbytes : dirBytes w inode = (dirBytes v inode).put32 o 0) :
    Directory w inode front o ∧
      ∀ i ∈ front, (dirBytes w inode).le32 i = (dirBytes v inode).le32 i ∧
        nameAt (dirBytes w inode) i = nameAt (dirBytes v inode) i := by
  have hsame : ∀ i ∈ front,
      ((dirBytes v inode).put32 o 0).le32 i = (dirBytes v inode).le32 i ∧
      ((dirBytes v inode).put32 o 0).le16 (i + 4) =
        (dirBytes v inode).le16 (i + 4) ∧
      nameLength ((dirBytes v inode).put32 o 0) i =
        nameLength (dirBytes v inode) i ∧
      nameAt ((dirBytes v inode).put32 o 0) i =
        nameAt (dirBytes v inode) i := by
    intro i hi
    have hpair := (List.pairwise_append.1 h.chain.pairwise).2.2 i hi o
      (by simp)
    exact entry_congr (fun k _ hk => put32_outside _ (by omega))
      (h.holdsName i (by simp [hi])) hpair
  have hblockSize : w.blockSize = v.blockSize := by rw [hgeometry]
  refine ⟨?_, fun i hi => ?_⟩
  · exact {
      size_lt := h.size_lt
      fits := by
        rw [hblockSize]
        exact h.fits
      chain := by
        rw [hbytes]
        refine h.chain.cut (fun i hi => ?_) (fun i hi => ?_) ?_
        · rw [(hsame i hi).1]
        · exact (hsame i hi).2.1
        · simp [u32]
      holdsName := by
        intro i hi
        rw [hbytes, (hsame i hi).2.1, (hsame i hi).2.2.1]
        exact h.holdsName i (by simp [hi])
      inBlock := by
        intro i hi
        rw [hblockSize]
        exact h.inBlock i (by simp [hi])
      named := by
        intro i hi
        rw [hbytes, (hsame i hi).2.2.2]
        exact h.named i (by simp [hi]) }
  · rw [hbytes]
    exact ⟨(hsame i hi).1, (hsame i hi).2.2.2⟩

/-! ## Lookups afterwards -/

/-- A deletion that spares the paths and clears the entry at `o`, which has
`front` before it and `back` behind it. -/
structure Unlink (v : Volume) (disk : ByteStore) (d : ℕ) (inode : Inode)
    (front : List ℕ) (o : ℕ) (back : List ℕ) (last : ℕ) : Prop where
  wellFormed : WellFormed v
  same : SamePaths v disk
  reach : Reach v d
  read : readInode v d = .ok inode
  directory : Directory v inode (front ++ o :: back) last

/-- The volume that such a deletion leaves. -/
def afterUnlink (v : Volume) (disk : ByteStore) (inode : Inode) (o : ℕ) :
    Volume :=
  v.withDisk (disk.put32 (dirAddress v inode o) 0)

namespace Unlink

variable {v : Volume} {disk : ByteStore} {d o last : ℕ} {inode : Inode}
  {front back : List ℕ}

/-- A block at another place than the entry's keeps its bytes. -/
theorem sameBlock
    (h : Unlink v disk d inode front o back last)
    {block : ℕ}
    (hblock : SameBlock v disk block)
    (hapart : v.blockBase (inode.block (o / v.blockSize)) ≠
      v.blockBase block) :
    SameBlock v (disk.put32 (dirAddress v inode o) 0) block := by
  have hfield := (h.directory.inDirectory h.read
    (show o ∈ front ++ o :: back by simp)).2
  intro k hk
  rw [put32_outside, hblock k hk]
  by_contra hinside
  have hplace : InBlock v block (v.blockBase block + k) := by
    unfold InBlock
    omega
  exact hapart ((hfield _ (by omega) (by omega)).1.same_base hplace)

theorem entryBlock
    (h : Unlink v disk d inode front o back last) :
    inode.directBlocks[o / v.blockSize]? =
      some (inode.block (o / v.blockSize)) :=
  (h.directory.inDirectory h.read
    (show o ∈ front ++ o :: back by simp)).1

theorem readInode
    (h : Unlink v disk d inode front o back last)
    {n : ℕ} (hnamed : Named v n) :
    readInode (afterUnlink v disk inode o) n = Ext3.readInode v n := by
  have hmem := List.mem_of_getElem? h.entryBlock
  obtain ⟨htable, hinodes⟩ :=
    h.wellFormed.tablesApart d inode _ h.reach h.read hmem
  refine readInode_withDisk (h.sameBlock h.same.table htable) ?_
  intro block hblock
  refine h.sameBlock (fun k hk => ?_) (hinodes n block hnamed hblock)
  exact h.same _ (.inode n block hnamed hblock
    ⟨Nat.le_add_right _ _, by omega⟩)

theorem enterDirectory
    (h : Unlink v disk d inode front o back last)
    {n : ℕ} (hnamed : Named v n) :
    enterDirectory (afterUnlink v disk inode o) n =
      Ext3.enterDirectory v n :=
  enterDirectory_withDisk (h.readInode hnamed)

theorem findDirEntry_other
    (h : Unlink v disk d inode front o back last)
    {d' : ℕ} (hreach : Reach v d') (hne : d' ≠ d) (name : CString) :
    findDirEntry (afterUnlink v disk inode o) d' name =
      findDirEntry v d' name := by
  refine findDirEntry_withDisk (h.readInode hreach.named) ?_ name
  intro inode' hread' block hblock
  refine h.sameBlock (h.same.directBlocks hreach hread' block hblock) ?_
  intro hbase
  obtain ⟨j, hj⟩ := List.getElem?_of_mem hblock
  exact hne (h.wellFormed.blocksApart d d' inode inode' _ j _ block h.reach
    hreach h.read hread' h.entryBlock hj hbase).1.symm

/-- In the directory itself only the entries in front of the deleted one are
found. -/
theorem findDirEntry_same
    (h : Unlink v disk d inode front o back last) (name : CString) :
    findDirEntry (afterUnlink v disk inode o) d name =
      .ok ((front.find? (fun i => nameAt (dirBytes v inode) i = name)).map
        (dirBytes v inode).le32) := by
  have hbytes := dirBytes_clearEntry h.wellFormed h.same h.reach h.read
    h.directory (show o ∈ front ++ o :: back by simp)
  obtain ⟨hdirectory, hentries⟩ := h.directory.clearEntry
    (w := afterUnlink v disk inode o) rfl hbytes
  have hread := (h.readInode h.reach.named).trans h.read
  have heq := findDirEntry_eq (v := afterUnlink v disk inode o)
    h.wellFormed.blockSize_le hread hdirectory name
  have hfind : front.find? (fun i => decide
      (nameAt (dirBytes (afterUnlink v disk inode o) inode) i = name)) =
        front.find? (fun i => nameAt (dirBytes v inode) i = name) := by
    apply List.find?_congr
    intro i hi
    rw [(hentries i hi).2]
  rw [heq, hfind]
  congr 1
  cases hentry : front.find?
      (fun i => nameAt (dirBytes v inode) i = name) with
  | none => simp only [Option.map_none]
  | some i =>
      simp only [Option.map_some, Option.some.injEq]
      exact (hentries i (List.mem_of_find?_eq_some hentry)).1

/-- A lookup is answered as before or fails, and it fails for the names behind
the deleted entry. -/
theorem findDirEntry_cases
    (h : Unlink v disk d inode front o back last)
    {t : ℕ × CString} (hreach : Reach v t.1) :
    findDirEntry (afterUnlink v disk inode o) t.1 t.2 =
        findDirEntry v t.1 t.2 ∨
      findDirEntry (afterUnlink v disk inode o) t.1 t.2 = .ok none := by
  by_cases hd : t.1 = d
  · rw [hd, h.findDirEntry_same, findDirEntry_eq h.wellFormed.blockSize_le
      h.read h.directory, List.find?_append]
    cases front.find? (fun i => nameAt (dirBytes v inode) i = t.2) with
    | none => exact .inr rfl
    | some i => exact .inl rfl
  · exact .inl (h.findDirEntry_other hreach hd t.2)

theorem resolve_kept
    (h : Unlink v disk d inode front o back last) {path : CString}
    (hfront : ∀ t ∈ trace v path, t.1 = d →
      ∃ i ∈ front, nameAt (dirBytes v inode) i = t.2) :
    resolve (afterUnlink v disk inode o) path = resolve v path := by
  refine walkNames_congr (fun t ht => ?_) (fun t ht n hfound =>
    h.enterDirectory (.inr ⟨t.1, t.2, mem_trace_reach ht, hfound⟩))
  by_cases hd : t.1 = d
  · rw [hd, h.findDirEntry_same, findDirEntry_eq h.wellFormed.blockSize_le
      h.read h.directory, List.find?_append]
    obtain ⟨i, hi, hname⟩ := hfront t ht hd
    have hsome : (front.find?
        (fun i => nameAt (dirBytes v inode) i = t.2)).isSome = true :=
      List.find?_isSome.2 ⟨i, hi, by simpa using hname⟩
    obtain ⟨j, hj⟩ := Option.isSome_iff_exists.1 hsome
    rw [hj]
    rfl
  · exact h.findDirEntry_other (mem_trace_reach ht) hd t.2

theorem resolve_lost
    (h : Unlink v disk d inode front o back last) {path : CString}
    {found : ℕ × ℕ} (hwalk : resolve v path = .ok (some found))
    {name : CString} (hmem : (d, name) ∈ trace v path)
    (hfront : ∀ i ∈ front, nameAt (dirBytes v inode) i ≠ name) :
    resolve (afterUnlink v disk inode o) path = .ok none := by
  refine walkNames_lost hwalk
    (fun t ht => h.findDirEntry_cases (mem_trace_reach ht))
    (fun t ht n hfound =>
      h.enterDirectory (.inr ⟨t.1, t.2, mem_trace_reach ht, hfound⟩))
    ⟨(d, name), hmem, ?_⟩
  have hnone : front.find?
      (fun i => nameAt (dirBytes v inode) i = name) = none :=
    List.find?_eq_none.2 (fun i hi => by simpa using hfront i hi)
  simp only [h.findDirEntry_same, hnone, Option.map_none]

end Unlink

/-! ## What a deletion does to paths -/

/-- No lookup of `q` is answered by the entry that `p` names or by one behind
it. -/
def NothingBehind (v : Volume) (p q : CString) : Prop :=
  ∀ d name, (trace v p).getLast? = some (d, name) →
    ∀ other, (d, other) ∈ trace v q →
      ∀ o o', findOffset v d name = .ok (some o) →
        findOffset v d other = .ok (some o') → o' < o

theorem findFile_after
    {v w : Volume} {path : CString} {inode : Inode} {n : ℕ}
    (hfind : findFile v path = .ok (some (inode, n)))
    (hread : ∀ n, Named v n → readInode w n = readInode v n)
    (hresolve : resolve w path = resolve v path) :
    findFile w path = .ok (some (inode, n)) := by
  have hnamed := findFile_named hfind
  obtain ⟨hlength, hinode, hwalk⟩ := findFile_eq_some.1 hfind
  refine findFile_eq_some.2 ⟨hlength, (hread n hnamed).trans hinode, ?_⟩
  rwa [hresolve]

/-- A deletion whose frees spare the paths removes `p` and keeps `q` exactly
when `p` ends in a name and `q` needs neither the entry that `p` names nor one
behind it. -/
theorem ext3Delete_keeps_iff
    (v next : Volume) (p q : CString) (inode inode' : Inode) (n m : ℕ)
    (hwf : WellFormed v)
    (hfind : findFile v p = .ok (some (inode, n)))
    (hdelete : ext3Delete v p = .ok (true, next))
    (hother : findFile v q = .ok (some (inode', m)))
    (hfrees : FreesNoPath v inode) :
    (findFile next p = .ok none ∧
        ∃ record, findFile next q = .ok (some (record, m))) ↔
      fileName p ≠ [] ∧ NothingBehind v p q := by
  obtain ⟨freed, parent, name, directory, offsets, last, hvolume, hsame, -,
    hparent, hreach, hread, hdirectory, hnext⟩ :=
    ext3Delete_spec hwf hfind hdelete hfrees
  have hname := (resolveParent_cases hparent).1
  by_cases hempty : name = []
  · have hnone : offsets.find?
        (fun o => nameAt (dirBytes v directory) o = name) = none := by
      rw [hempty]
      exact List.find?_eq_none.2
        (fun o ho => by simpa using hdirectory.named o ho)
    rw [hnone] at hnext
    simp only at hnext
    constructor
    · rintro ⟨hgone, -⟩
      rw [hnext, hsame.findFile, hfind] at hgone
      cases hgone
    · rintro ⟨hne, -⟩
      exact absurd (hname.symm.trans hempty) hne
  · have hnames : components p ≠ [] := fun hnone =>
      hempty (hname.trans (fileName_of_components hnone))
    obtain ⟨hlength, -, ⟨hnone, -⟩ | ⟨place, hwalk⟩⟩ :=
      findFile_eq_some.1 hfind
    · exact absurd hnone hnames
    obtain ⟨rfl, hlast, hentry⟩ :=
      resolveParent_named hwf.root hparent hwalk hempty
    rw [findDirEntry_eq hwf.blockSize_le hread hdirectory] at hentry
    cases hfound : offsets.find?
        (fun o => nameAt (dirBytes v directory) o = name) with
    | none => simp [hfound] at hentry
    | some o =>
        obtain ⟨hsamename, front, back, rfl, hfront⟩ :=
          List.find?_eq_some_iff_append.1 hfound
        have hunlink : Unlink v freed.disk parent directory front o back
            last := ⟨hwf, hsame, hreach, hread, hdirectory⟩
        have hafter : next = afterUnlink v freed.disk directory o := by
          rw [hnext, hfound]
          rfl
        have hreadAfter : ∀ k, Named v k →
            readInode next k = readInode v k := by
          intro k hk
          rw [hafter]
          exact hunlink.readInode hk
        have hnotFront : ∀ i ∈ front,
            nameAt (dirBytes v directory) i ≠ name := by
          intro i hi
          simpa using hfront i hi
        have hgone : findFile next p = .ok none := by
          refine findFile_eq_none hlength hnames ?_
          rw [hafter]
          exact hunlink.resolve_lost hwalk (List.mem_of_getLast? hlast)
            hnotFront
        have hoffset : findOffset v parent name = .ok (some o) := by
          rw [findOffset_eq hwf.blockSize_le hread hdirectory, hfound]
        have hpairs := hdirectory.chain.pairwise
        have hbefore : ∀ i ∈ front, i < o := by
          intro i hi
          have hpair := (List.pairwise_append.1 hpairs).2.2 i hi o (by simp)
          have hpos := (hdirectory.chain.mem_bounds (o := i)
            (by simp [hi])).2.2.2.1
          omega
        have hbehind : ∀ i ∈ o :: back, o ≤ i := by
          intro i hi
          rcases List.mem_cons.1 hi with rfl | hback
          · exact le_rfl
          · have hcons := (List.pairwise_append.1 hpairs).2.1
            have hpair := (List.pairwise_cons.1 hcons).1 i hback
            omega
        constructor
        · rintro ⟨-, record, hkept⟩
          refine ⟨by rwa [← hname], fun d nm hlast' other hmem o₁ o₂ ho₁ ho₂ =>
            ?_⟩
          rw [hlast] at hlast'
          cases hlast'
          rw [hoffset] at ho₁
          cases ho₁
          rw [findOffset_eq hwf.blockSize_le hread hdirectory,
            List.find?_append] at ho₂
          cases hin : front.find?
              (fun i => nameAt (dirBytes v directory) i = other) with
          | some i =>
              rw [hin] at ho₂
              simp only [Option.some_or, Except.ok.injEq,
                Option.some.injEq] at ho₂
              subst ho₂
              exact hbefore i (List.mem_of_find?_eq_some hin)
          | none =>
              exfalso
              have hnotOther : ∀ i ∈ front,
                  nameAt (dirBytes v directory) i ≠ other := by
                intro i hi
                simpa using List.find?_eq_none.1 hin i hi
              obtain ⟨hlength', -, ⟨hnone, -⟩ | ⟨place', hwalk'⟩⟩ :=
                findFile_eq_some.1 hother
              · rw [trace, hnone, lookups] at hmem
                cases hmem
              · have hlost := hunlink.resolve_lost hwalk' hmem hnotOther
                rw [← hafter] at hlost
                obtain ⟨-, -, ⟨hnone, -⟩ | ⟨place'', hwalk''⟩⟩ :=
                  findFile_eq_some.1 hkept
                · rw [trace, hnone, lookups] at hmem
                  cases hmem
                · rw [hlost] at hwalk''
                  cases hwalk''
        · rintro ⟨-, hnothing⟩
          refine ⟨hgone, inode', findFile_after hother hreadAfter ?_⟩
          rw [hafter]
          obtain ⟨-, -, ⟨hnone, -⟩ | ⟨place', hwalk'⟩⟩ :=
            findFile_eq_some.1 hother
          · simp only [resolve, hnone, walkNames]
          · refine hunlink.resolve_kept (fun t ht hd => ?_)
            obtain ⟨k, hk⟩ := lookups_found hwalk' t ht
            rw [hd, findDirEntry_eq hwf.blockSize_le hread hdirectory] at hk
            cases hin : (front ++ o :: back).find?
                (fun i => nameAt (dirBytes v directory) i = t.2) with
            | none => simp [hin] at hk
            | some i =>
                have hplace : findOffset v parent t.2 = .ok (some i) := by
                  rw [findOffset_eq hwf.blockSize_le hread hdirectory, hin]
                have hlt := hnothing parent name hlast t.2
                  (by rw [← hd]; exact ht) o i hoffset hplace
                have hmem := List.mem_of_find?_eq_some hin
                have hname' := List.find?_some hin
                rcases List.mem_append.1 hmem with hi | hi
                · exact ⟨i, hi, by simpa using hname'⟩
                · have hge := hbehind i hi
                  omega

/-- `s` stands behind `h`, so `/h` survives the deletion of `/s`. -/
theorem ext3Delete_keeps_iff_shortLink :
    ∃ next, ext3Delete shortLink [47, 115] = .ok (true, next) ∧
      findFile next [47, 115] = .ok none ∧
        ∃ record, findFile next [47, 104] = .ok (some (record, 12)) := by
  have hfound : (findFile shortLink [47, 115]).satisfies (fun found =>
      found.any fun file => decide
        (freedBits shortLink (freedWords file.1) = [32781])) = true := by
    decide +kernel
  have hkept : (findFile shortLink [47, 104]).satisfies (fun found =>
      found.any fun file => decide (file.2 = 12)) = true := by
    decide +kernel
  have hdeleted : (ext3Delete shortLink [47, 115]).satisfies
      (fun result => result.1) = true := by
    decide +kernel
  have htraces : trace shortLink [47, 115] = [(rootInode, [115])] ∧
      trace shortLink [47, 104] = [(rootInode, [104])] := by
    decide +kernel
  have hlast : (findOffset shortLink rootInode [115]).satisfies
        (fun o => o = some 56) = true ∧
      (findOffset shortLink rootInode [104]).satisfies
        (fun o => o = some 24) = true := by
    decide +kernel
  obtain ⟨found, hfind, htest⟩ := Outcome.exists_of_satisfies hfound
  obtain ⟨other, hother, htwelve⟩ := Outcome.exists_of_satisfies hkept
  obtain ⟨⟨deleted, next⟩, hdelete, htrue⟩ :=
    Outcome.exists_of_satisfies hdeleted
  cases found with
  | none => simp at htest
  | some pair =>
      cases other with
      | none => simp at htwelve
      | some pair' =>
          obtain ⟨inode, n⟩ := pair
          obtain ⟨inode', m⟩ := pair'
          have hfreed : freedBits shortLink (freedWords inode) = [32781] :=
            of_decide_eq_true htest
          have hm : m = 12 := of_decide_eq_true htwelve
          have hdeletedTrue : deleted = true := htrue
          subst hdeletedTrue hm
          have hfrees : FreesNoPath shortLink inode := by
            intro x hx _ hpath
            rw [hfreed, List.mem_singleton] at hx
            subst hx
            have hbounds := shortLink.pathByte_bounds hpath
            omega
          refine ⟨next, hdelete, (ext3Delete_keeps_iff shortLink next
            [47, 115] [47, 104] inode inode' n 12 shortLink.wellFormed hfind
            hdelete hother hfrees).2 ⟨by decide, ?_⟩⟩
          intro d name hd other hmem o o' ho ho'
          rw [htraces.1] at hd
          rw [htraces.2] at hmem
          simp only [List.getLast?_singleton, Option.some.injEq,
            Prod.mk.injEq] at hd
          simp only [List.mem_singleton, Prod.mk.injEq] at hmem
          obtain ⟨rfl, rfl⟩ := hd
          obtain ⟨-, rfl⟩ := hmem
          obtain ⟨hs, hh⟩ := hlast
          rw [ho] at hs
          rw [ho'] at hh
          have hs' : some o = some 56 := of_decide_eq_true hs
          have hh' : some o' = some 24 := of_decide_eq_true hh
          cases hs'
          cases hh'
          omega

/-- Deleting `/h` hides `/l`, which stands behind it. -/
theorem ext3Delete_hides :
    ∃ next inode inode',
      findFile shortLink [47, 104] = .ok (some (inode, 12)) ∧
        ext3Delete shortLink [47, 104] = .ok (true, next) ∧
        findFile shortLink [47, 108] = .ok (some (inode', 13)) ∧
        (∀ t, (trace shortLink [47, 104]).getLast? = some t →
          t ∉ trace shortLink [47, 108]) ∧
        ¬(findFile next [47, 104] = .ok none ∧
          ∃ record, findFile next [47, 108] =
            .ok (some (record, 13))) := by
  have hnumbers : (findFile shortLink [47, 104]).satisfies (fun found =>
        found.map Prod.snd = some 12) = true ∧
      (findFile shortLink [47, 108]).satisfies (fun found =>
        found.map Prod.snd = some 13) = true := by
    decide +kernel
  have hdeleted : (ext3Delete shortLink [47, 104]).satisfies
      (fun result => result.1 && (findFile result.2 [47, 108]).satisfies
        Option.isNone) = true := by
    decide +kernel
  have htraces : trace shortLink [47, 104] = [(rootInode, [104])] ∧
      trace shortLink [47, 108] = [(rootInode, [108])] := by
    decide +kernel
  obtain ⟨found, hfind, htwelve⟩ := Outcome.exists_of_satisfies hnumbers.1
  obtain ⟨other, hother, hthirteen⟩ :=
    Outcome.exists_of_satisfies hnumbers.2
  obtain ⟨⟨deleted, next⟩, hdelete, htest⟩ :=
    Outcome.exists_of_satisfies hdeleted
  have htwelve' : found.map Prod.snd = some 12 := of_decide_eq_true htwelve
  have hthirteen' : other.map Prod.snd = some 13 :=
    of_decide_eq_true hthirteen
  obtain ⟨⟨inode, n⟩, rfl, rfl⟩ := Option.map_eq_some_iff.1 htwelve'
  obtain ⟨⟨inode', m⟩, rfl, rfl⟩ := Option.map_eq_some_iff.1 hthirteen'
  obtain ⟨htrue, hlost⟩ := Bool.and_eq_true_iff.1 htest
  simp only at htrue hlost
  subst htrue
  refine ⟨next, inode, inode', hfind, hdelete, hother, ?_, ?_⟩
  · intro t ht
    rw [htraces.1] at ht
    simp only [List.getLast?_singleton, Option.some.injEq] at ht
    rw [htraces.2, ← ht]
    decide
  · rintro ⟨-, record, hkept⟩
    rw [hkept] at hlost
    cases hlost

end ClOs.Ext3
