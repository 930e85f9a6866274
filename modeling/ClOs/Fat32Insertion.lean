import ClOs.Fat32Directories

/-!
# Adding an entry to a directory

`create_dir_entry` takes the first slot that is deleted or marks the end.  A
directory without such a slot gets another cluster, if one is free.
-/

namespace ClOs.Fat32

open ByteStore

/-- A directory with a slot that can take an entry. -/
def Volume.Vacancy (v : Volume) (first : ℕ) : Prop :=
  ∃ e ∈ v.slots first, e.isEnd = true ∨ e.isDeleted = true

/-- `next` is `v` with the entry `e` in a directory, whose chain is longer by the
clusters in `extra`. -/
structure Inserts (v next : Volume) (first : ℕ) (e : Entry) (extra : List ℕ) :
    Prop where
  frame : v.Frame next {x | x ∈ v.chain first ++ extra}
    {x | x ∈ v.chain first ++ extra}
  free : ∀ x ∈ extra, v.Free x
  ends : next.Ends first
  chain : next.chain first = v.chain first ++ extra
  closed : next.Closed first
  live : ∃ before after, v.live first = before ++ after ∧
    next.live first =
      before ++ liveSlots Entry.isEnd Entry.isDeleted [e] ++ after

section

variable {v next : Volume} {first cluster : ℕ} {e f : Entry} {name : CString}
  {attrs target size : ℕ}

/-! ## New clusters -/

theorem clusterOf_one (hgeometry : v.bpb.Geometry) (e : Entry) :
    clusterOf v [e] = .ok (blit (fun _ => 0) 0 e 32) := by
  have hpos := hgeometry.cluster
  have hsize := bytesPerCluster_eq hgeometry
  have hload : Buffer.load ⟨v.bytesPerCluster, fun _ => 0⟩ (32 * 0) e 32 =
      .ok ⟨v.bytesPerCluster, blit (fun _ => 0) 0 e 32⟩ :=
    Buffer.load_eq_ok.2 ⟨by simp only; omega, rfl⟩
  have hslice : (Buffer.mk v.bytesPerCluster
      (blit (fun _ => 0) 0 e 32)).slice 0 (512 * v.bpb.sectorsPerCluster) =
        .ok (blit (fun _ => 0) 0 e 32) := by
    refine Buffer.slice_eq_ok.2 ⟨by simp only; omega, ?_⟩
    funext k
    simp
  unfold clusterOf
  rw [List.zipIdx_singleton, List.foldlM_cons, hload]
  simp only [bind, Except.bind, List.foldlM_nil, pure, Except.pure,
    sectorsMoved_cluster, hslice]

theorem clusterOf_two (hgeometry : v.bpb.Geometry) (e f : Entry) :
    clusterOf v [e, f] =
      .ok ((blit (fun _ => 0) 0 e 32).blit 32 f 32) := by
  have hpos := hgeometry.cluster
  have hsize := bytesPerCluster_eq hgeometry
  have hload : Buffer.load ⟨v.bytesPerCluster, fun _ => 0⟩ (32 * 0) e 32 =
      .ok ⟨v.bytesPerCluster, blit (fun _ => 0) 0 e 32⟩ :=
    Buffer.load_eq_ok.2 ⟨by simp only; omega, rfl⟩
  have hnext : Buffer.load ⟨v.bytesPerCluster, blit (fun _ => 0) 0 e 32⟩
      (32 * 1) f 32 = .ok ⟨v.bytesPerCluster,
        (blit (fun _ => 0) 0 e 32).blit 32 f 32⟩ :=
    Buffer.load_eq_ok.2 ⟨by simp only; omega, rfl⟩
  have hslice : (Buffer.mk v.bytesPerCluster
      ((blit (fun _ => 0) 0 e 32).blit 32 f 32)).slice 0
        (512 * v.bpb.sectorsPerCluster) =
          .ok ((blit (fun _ => 0) 0 e 32).blit 32 f 32) := by
    refine Buffer.slice_eq_ok.2 ⟨by simp only; omega, ?_⟩
    funext k
    simp
  unfold clusterOf
  rw [show [e, f].zipIdx = [(e, 0), (f, 1)] from rfl, List.foldlM_cons, hload]
  simp only [bind, Except.bind, List.foldlM_cons, hnext, List.foldlM_nil, pure,
    Except.pure, sectorsMoved_cluster, hslice]

theorem rowOf_blit
    (hgeometry : v.bpb.Geometry) {count : ℕ} (hcount : count ≤ 16)
    {bytes : ByteStore} (hblank : ∀ k, 32 * count ≤ k → bytes k = 0) :
    ∃ after, rowOf v.entriesPerCluster bytes =
        rowOf count bytes ++ after ∧ ∀ f ∈ after, f = blankEntry := by
  have hpos := hgeometry.cluster
  have hslots : count ≤ v.entriesPerCluster := by
    unfold Volume.entriesPerCluster
    rw [bytesPerCluster_eq hgeometry]
    omega
  obtain ⟨more, hmore⟩ := Nat.exists_eq_add_of_le hslots
  refine ⟨((List.range more).map (count + ·)).map (entryAt bytes), ?_, ?_⟩
  · unfold rowOf
    rw [hmore, List.range_add, List.map_append]
  · intro f hf
    obtain ⟨j, hj, rfl⟩ := List.mem_map.1 hf
    obtain ⟨i, -, rfl⟩ := List.mem_map.1 hj
    funext k
    unfold entryAt
    split_ifs
    · exact hblank _ (by omega)
    · rfl

/-! ## A free slot -/

theorem live_singleton (hend : e.isEnd = false) (slots : List Entry) :
    liveSlots Entry.isEnd Entry.isDeleted (e :: slots) =
      liveSlots Entry.isEnd Entry.isDeleted [e] ++
        liveSlots Entry.isEnd Entry.isDeleted slots := by
  have hone : ∀ f ∈ [e], f.isEnd = false := by simpa using hend
  rw [← liveSlots_append hone, List.singleton_append]

theorem inserts_slot
    (hgeometry : v.bpb.Geometry) (hends : v.Ends first)
    (hclosed : v.Closed first) (hend : e.isEnd = false)
    (houtside : ∀ k, 32 ≤ k → e k = 0) {front rest : List ℕ}
    (hsplit : v.chain first = front ++ cluster :: rest) {i : ℕ}
    (hi : firstEntry v (v.clusterBytes cluster)
      (fun f => f.isEnd || f.isDeleted) = some i)
    (hfront : ∀ x ∈ front, firstEntry v (v.clusterBytes x)
      (fun f => f.isEnd || f.isDeleted) = none) :
    v.Vacancy first ∧ Inserts v (writeCluster v cluster
      ((v.clusterBytes cluster).blit (32 * i) e 32)) first e [] := by
  have hmem : cluster ∈ v.chain first :=
    hsplit ▸ List.mem_append_right _ List.mem_cons_self
  have hhas := hends.cluster cluster hmem
  generalize hbytes : (v.clusterBytes cluster).blit (32 * i) e 32 = bytes
  obtain ⟨-, haccept, before, after, hrow, hbefore, hnext⟩ := row_split hi
  have hold : v.slots first = (front.flatMap v.row ++ before) ++
      entryAt (v.clusterBytes cluster) i ::
        (after ++ rest.flatMap v.row) := by
    have hcluster : v.row cluster =
        before ++ entryAt (v.clusterBytes cluster) i :: after := hrow
    unfold Volume.slots
    rw [hsplit, List.flatMap_append, List.flatMap_cons, hcluster]
    simp
  have hslot : entryAt bytes i = e := by
    rw [← hbytes]
    exact entryAt_blit_same _ houtside i
  obtain ⟨hnends, hchain, hslots⟩ :=
    slots_writeCluster hgeometry hends hsplit bytes
  have hnew : (writeCluster v cluster bytes).slots first =
      (front.flatMap v.row ++ before) ++
        e :: (after ++ rest.flatMap v.row) := by
    rw [hslots, hnext bytes fun j hj => by
      rw [← hbytes]
      exact entryAt_blit_of_ne _ _ hj, hslot]
    simp
  have hlive : ∀ f ∈ front.flatMap v.row ++ before,
      f.isEnd = false ∧ f.isDeleted = false := by
    intro f hf
    have hnot : (f.isEnd || f.isDeleted) = false := by
      rcases List.mem_append.1 hf with hf | hf
      · obtain ⟨x, hx, hf⟩ := List.mem_flatMap.1 hf
        have hnone := firstEntry_eq_find? v (v.clusterBytes x)
          (fun f => f.isEnd || f.isDeleted)
        rw [hfront x hx, Option.map_none, List.find?_eq_none] at hnone
        simpa using hnone f hf
      · exact hbefore f hf
    exact Bool.or_eq_false_iff.1 hnot
  have hvacant : (entryAt (v.clusterBytes cluster) i).isEnd = true ∨
      (entryAt (v.clusterBytes cluster) i).isDeleted = true :=
    (Bool.or_eq_true _ _).mp haccept
  have hwhole := hclosed
  unfold Volume.Closed at hwhole
  rw [hold] at hwhole
  obtain ⟨hkeep, hpast, hpresent⟩ :=
    hwhole.insert blankEntry_isEnd hlive hvacant hend
  rw [← hold] at hpast
  rw [← hnew] at hkeep hpresent
  rw [live_singleton hend, ← List.append_assoc] at hpresent
  refine ⟨⟨_, ?_, hvacant⟩, ?_, ?_, hnends, ?_, hkeep, _, _, hpast, hpresent⟩
  · rw [hold]
    exact List.mem_append_right _ List.mem_cons_self
  · refine (Volume.frame_writeCluster hgeometry hhas bytes).mono
      (Set.empty_subset _) ?_
    rintro x rfl
    exact List.mem_append_left _ hmem
  · simp
  · rw [hchain, List.append_nil]

/-! ## A new cluster -/

/-- The directory is full, and a free cluster is hung on. -/
theorem inserts_cluster
    (hgeometry : v.bpb.Geometry) (hends : v.Ends first)
    (hlive : ∀ f ∈ v.slots first, f.isEnd = false ∧ f.isDeleted = false)
    (hend : e.isEnd = false) (houtside : ∀ k, 32 ≤ k → e k = 0)
    (hfree : v.Free cluster) {found linked ended : Volume}
    (hfound : found = { v with lastFreeCluster := v.bpb.turn cluster 1 })
    (hlinked : Links found linked ((v.chain first).getLastD first) cluster)
    (hended : Links linked ended cluster 0x0FFFFFF8) :
    Inserts v (writeCluster ended cluster (blit (fun _ => 0) 0 e 32)) first e
      [cluster] := by
  obtain ⟨front, last, hsplit⟩ : ∃ front last,
      v.chain first = front ++ [last] :=
    ⟨_, _, (List.dropLast_append_getLast (hends.ne_nil hgeometry)).symm⟩
  rw [hsplit, List.getLastD_concat] at hlinked
  have hlast : last ∈ v.chain first := by
    rw [hsplit]
    exact List.mem_append_right _ (List.mem_singleton_self _)
  have hhas := hends.cluster last hlast
  have hnotin : cluster ∉ v.chain first :=
    fun hmem => hends.link_ne_zero hmem hfree.2
  have hne : last ≠ cluster := by
    rintro rfl
    exact hnotin hlast
  have hentry := hgeometry.hasEntry hhas
  have hnewentry := hgeometry.hasEntry hfree.1
  have hmoved : v.Frame found ∅ ∅ := by
    rw [hfound]
    exact v.frame_cursor (Bpb.turn_has hfree.1 1)
  have hfbpb := hmoved.bpb
  have hfirst : found.Frame linked {last} ∅ :=
    Volume.frame_links hlinked (hfbpb ▸ hgeometry.tables) (hfbpb ▸ hentry)
  have hlbpb : linked.bpb = v.bpb := hfirst.bpb.trans hfbpb
  have hsecond : linked.Frame ended {cluster} ∅ :=
    Volume.frame_links hended (hlbpb ▸ hgeometry.tables) (hlbpb ▸ hnewentry)
  have hebpb : ended.bpb = v.bpb := hsecond.bpb.trans hlbpb
  have hthird : ended.Frame
      (writeCluster ended cluster (blit (fun _ => 0) 0 e 32)) ∅ {cluster} :=
    Volume.frame_writeCluster (hebpb ▸ hgeometry) (hebpb ▸ hfree.1) _
  generalize hstored : writeCluster ended cluster
    (blit (fun _ => 0) 0 e 32) = stored at hthird ⊢
  have hframe : v.Frame stored {last, cluster} {cluster} :=
    (((hmoved.trans hfirst).trans hsecond).trans hthird).mono
      (by intro x hx; simpa [or_comm] using hx) (by intro x hx; simpa using hx)
  have hlinkLast : stored.link last = cluster := by
    rw [(hsecond.trans hthird).link (hlbpb ▸ hgeometry.tables) (hlbpb ▸ hentry)
        (by simpa using hne),
      hlinked.link_same (hfbpb ▸ hgeometry.tables),
      Nat.mod_eq_of_lt (by have := (hgeometry.isCluster hfree.1).2; omega)]
  have hlinkNew : stored.link cluster = 0x0FFFFFF8 := by
    rw [hthird.link (hebpb ▸ hgeometry.tables) (hebpb ▸ hnewentry)
        (Set.notMem_empty _),
      hended.link_same (hlbpb ▸ hgeometry.tables)]
  have hchain : ChainFrom stored.link Continues first
      (v.chain first ++ [cluster]) := by
    have hold := hends.chain
    rw [hsplit] at hold ⊢
    rw [List.append_assoc, List.singleton_append]
    refine hold.extend (fun x hx => ?_) ?_
    · have hxmem : x ∈ v.chain first := by
        rw [hsplit]
        exact List.mem_append_left _ hx
      refine hframe.link hgeometry.tables
        (hgeometry.hasEntry (hends.cluster x hxmem)) ?_
      rintro (rfl | rfl)
      · have hnodup := hends.chain.nodup
        rw [hsplit] at hnodup
        exact (List.nodup_append.1 hnodup).2.2 x hx x
          (List.mem_singleton_self _) rfl
      · exact hnotin hxmem
    · rw [hlinkLast]
      refine ⟨rfl, hfree.1.continues hgeometry, ?_⟩
      rw [hlinkNew]
      unfold ChainFrom Continues
      norm_num
  have hall : ∀ x ∈ v.chain first ++ [cluster], stored.bpb.Has x := by
    rw [hframe.bpb]
    intro x hx
    rcases List.mem_append.1 hx with hx | hx
    · exact hends.cluster x hx
    · rw [List.mem_singleton.1 hx]
      exact hfree.1
  have hsame := Volume.chain_eq hchain hall
  have hnends : stored.Ends first := Volume.ends_of_chain hchain hall
    (List.mem_append_left _ (hends.mem hgeometry))
  obtain ⟨after, hrow, hblank⟩ := @rowOf_blit v hgeometry 1 (by norm_num)
    (blit (fun _ => 0) 0 e 32) (fun k hk => blit_outside _ _ (by omega))
  have hslots : stored.slots first = v.slots first ++ e :: after := by
    have hrows : ∀ x ∈ v.chain first, stored.row x = v.row x := by
      intro x hx
      unfold Volume.row Volume.entriesPerCluster
      rw [hframe.bytesPerCluster, hframe.clusterBytes x (hends.cluster x hx)]
      rintro rfl
      exact hnotin hx
    have hnew : stored.row cluster = e :: after := by
      have hwidth : ended.entriesPerCluster = v.entriesPerCluster := by
        unfold Volume.entriesPerCluster Volume.bytesPerCluster
        rw [hebpb]
      have hone : rowOf 1 (blit (fun _ => 0) 0 e 32) = [e] :=
        congrArg (fun f => [f]) (entryAt_blit_same (fun _ => 0) houtside 0)
      rw [← hstored, row_writeCluster_same (hebpb ▸ hgeometry)
        (hebpb ▸ hfree.1), hwidth, hrow, hone]
      rfl
    unfold Volume.slots
    rw [hsame, List.flatMap_append, List.flatMap_congr hrows]
    simp [hnew]
  obtain ⟨hclosed, hpast, hpresent⟩ :=
    closedBy_extend blankEntry_isEnd hlive hend hblank
  rw [← hslots] at hclosed hpresent
  refine ⟨hframe.mono ?_ ?_, ?_, hnends, hsame, hclosed, v.slots first, [], ?_,
    ?_⟩
  · rintro x (rfl | rfl)
    · exact List.mem_append_left _ hlast
    · exact List.mem_append_right _ (List.mem_singleton_self _)
  · rintro x rfl
    exact List.mem_append_right _ (List.mem_singleton_self _)
  · intro x hx
    rw [List.mem_singleton.1 hx]
    exact hfree
  · rw [List.append_nil]
    exact hpast
  · rw [List.append_nil]
    exact hpresent

/-! ## `create_dir_entry` -/

/-- The call takes a slot, or a new cluster when there is none, or fails and changes
nothing when there is no free cluster either. -/
theorem createDirEntry_ok
    (hgeometry : v.bpb.Geometry) (hcursor : v.bpb.Has v.lastFreeCluster)
    (hends : v.Ends first) (hclosed : v.Closed first) (hname : 0 ∉ name)
    (attrs target size : ℕ) :
    (v.Vacancy first ∧ ∃ next,
        createDirEntry v first name attrs target size = .ok (true, next) ∧
          Inserts v next first (newEntry name attrs target size) []) ∨
      (¬v.Vacancy first ∧ ∃ next cluster,
        createDirEntry v first name attrs target size = .ok (true, next) ∧
          Inserts v next first (newEntry name attrs target size) [cluster]) ∨
      (¬v.Vacancy first ∧ (∀ x, ¬v.Free x) ∧
        createDirEntry v first name attrs target size = .ok (false, v)) := by
  generalize hentry : newEntry name attrs target size = e
  have hend : e.isEnd = false := hentry ▸ newEntry_isEnd hname
  have houtside : ∀ k, 32 ≤ k → e k = 0 :=
    fun k hk => hentry ▸ newEntry_outside hk
  have hstart : first ≠ 0 := by
    have := hends.start.1
    omega
  unfold createDirEntry
  simp only [if_neg hstart, hentry]
  rw [@walkChain_eq _ _ _ _ (fun x => (firstEntry v (v.clusterBytes x)
    (fun f => f.isEnd || f.isDeleted)).map fun i => writeCluster v x
      ((v.clusterBytes x).blit (32 * i) e 32)) hgeometry hends ?visits]
  case visits =>
    intro x _
    cases firstEntry v (v.clusterBytes x) (fun f => f.isEnd || f.isDeleted) <;>
      rfl
  cases hwalk : (v.chain first).findSome? (fun x =>
      (firstEntry v (v.clusterBytes x) (fun f => f.isEnd || f.isDeleted)).map
        fun i => writeCluster v x
          ((v.clusterBytes x).blit (32 * i) e 32)) with
  | some next =>
      obtain ⟨front, cluster, rest, hsplit, hcluster, hfront⟩ :=
        List.findSome?_eq_some_iff.1 hwalk
      obtain ⟨i, hi, rfl⟩ := Option.map_eq_some_iff.1 hcluster
      obtain ⟨hvacancy, hinserts⟩ := inserts_slot hgeometry hends hclosed hend
        houtside hsplit hi fun x hx => Option.map_eq_none_iff.1 (hfront x hx)
      exact .inl ⟨hvacancy, _, rfl, hinserts⟩
  | none =>
      have hlive : ∀ f ∈ v.slots first,
          f.isEnd = false ∧ f.isDeleted = false := by
        intro f hf
        obtain ⟨x, hx, hf⟩ := List.mem_flatMap.1 hf
        have hnone := List.findSome?_eq_none_iff.1 hwalk x hx
        have hrow := firstEntry_eq_find? v (v.clusterBytes x)
          (fun f => f.isEnd || f.isDeleted)
        rw [Option.map_eq_none_iff.1 hnone, Option.map_none,
          List.find?_eq_none] at hrow
        have hpass := hrow f hf
        rw [Bool.not_eq_true] at hpass
        exact Bool.or_eq_false_iff.1 hpass
      have hvacancy : ¬v.Vacancy first := by
        rintro ⟨f, hf, hend | hdeleted⟩
        · rw [(hlive f hf).1] at hend
          cases hend
        · rw [(hlive f hf).2] at hdeleted
          cases hdeleted
      by_cases hfree : ∃ x, v.Free x
      · obtain ⟨cluster, hcluster, hfind, -⟩ :=
          findFreeCluster_some hgeometry.numbered hcursor hfree
        generalize hfound : ({ v with
          lastFreeCluster := v.bpb.turn cluster 1 } : Volume) = found at hfind
        have hfbpb : found.bpb = v.bpb := by rw [← hfound]
        have hlast : v.bpb.Has ((v.chain first).getLastD first) := by
          rw [List.getLastD_eq_getLast?,
            List.getLast?_eq_some_getLast (hends.ne_nil hgeometry)]
          exact hends.cluster _ (List.getLast_mem _)
        obtain ⟨linked, hlink, hlinked⟩ := @setNextCluster_ok found _
          (hfbpb ▸ hgeometry.tables) (hfbpb ▸ hgeometry.hasEntry hlast) cluster
        have hlbpb : linked.bpb = v.bpb := hlinked.bpb.trans hfbpb
        obtain ⟨ended, hclose, hended⟩ := @setNextCluster_ok linked cluster
          (hlbpb ▸ hgeometry.tables) (hlbpb ▸ hgeometry.hasEntry hcluster.1)
          0x0FFFFFF8
        have hebpb : ended.bpb = v.bpb := hended.bpb.trans hlbpb
        have hbytes := clusterOf_one (hebpb ▸ hgeometry) e
        have hpos : cluster ≠ 0 := by
          have := hcluster.1.1
          omega
        have hinserts := inserts_cluster hgeometry hends hlive hend houtside
          hcluster hfound.symm hlinked hended
        refine .inr (.inl ⟨hvacancy, _, cluster, ?_, hinserts⟩)
        simp only [bind, Except.bind, hfind, if_neg hpos, hlink, hclose, hbytes]
        rfl
      · rw [not_exists] at hfree
        refine .inr (.inr ⟨hvacancy, hfree, ?_⟩)
        simp only [bind, Except.bind,
          findFreeCluster_none hgeometry.numbered hcursor hfree, if_true]
        rfl

end

end ClOs.Fat32
