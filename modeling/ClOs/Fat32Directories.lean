import ClOs.Fat32Allocation
import ClOs.Fat32Contents
import ClOs.Fat32Entries
import ClOs.SlotLists

/-!
# The slots of a directory

A directory keeps its entries in slots of 32 bytes, row by row over the clusters of
its chain.  The walks of lookup, insertion and deletion are searches in the row of
all its slots, and each changes one slot at most.
-/

namespace ClOs.Fat32

open ByteStore

/-- The slots in a cluster buffer. -/
def rowOf (count : ℕ) (bytes : ByteStore) : List Entry :=
  (List.range count).map (entryAt bytes)

/-- A slot of zero bytes. -/
def blankEntry : Entry := fun _ => 0

namespace Volume

def row (v : Volume) (cluster : ℕ) : List Entry :=
  rowOf v.entriesPerCluster (v.clusterBytes cluster)

def slots (v : Volume) (first : ℕ) : List Entry :=
  (v.chain first).flatMap v.row

def live (v : Volume) (first : ℕ) : List Entry :=
  liveSlots Entry.isEnd Entry.isDeleted (v.slots first)

/-- The entries of a directory other than `.` and `..`. -/
def entries (v : Volume) (first : ℕ) : List Entry :=
  (v.live first).filter (fun e => decide (e.name ∉ dotNames))

/-- Behind the end marker of a directory there are zero bytes only. -/
def Closed (v : Volume) (first : ℕ) : Prop :=
  ClosedBy Entry.isEnd blankEntry (v.slots first)

end Volume

section

variable {v next : Volume} {first cluster i : ℕ} {accept : Entry → Bool}
  {bytes : ByteStore} {name : List UInt8} {e : Entry}

@[simp] theorem blankEntry_isEnd : blankEntry.isEnd = true := rfl

/-! ## Rows -/

theorem firstEntry_eq_find? (v : Volume) (bytes : ByteStore)
    (accept : Entry → Bool) :
    (rowOf v.entriesPerCluster bytes).find? accept =
      (firstEntry v bytes accept).map (entryAt bytes) := by
  unfold rowOf firstEntry
  rw [List.find?_map]
  rfl

/-- A row around the first slot that a test accepts. -/
theorem row_split
    (h : firstEntry v bytes accept = some i) :
    i < v.entriesPerCluster ∧ accept (entryAt bytes i) = true ∧
      ∃ before after,
        rowOf v.entriesPerCluster bytes =
          before ++ entryAt bytes i :: after ∧
        (∀ e ∈ before, accept e = false) ∧
        ∀ next : ByteStore,
          (∀ j, j ≠ i → entryAt next j = entryAt bytes j) →
            rowOf v.entriesPerCluster next =
              before ++ entryAt next i :: after := by
  obtain ⟨haccept, front, rest, hrange, hfront⟩ :=
    List.find?_eq_some_iff_append.1 h
  have hi : i ∈ List.range v.entriesPerCluster := by
    rw [hrange]
    exact List.mem_append_right _ List.mem_cons_self
  have hnodup := hrange ▸ List.nodup_range (n := v.entriesPerCluster)
  rw [List.nodup_middle, List.nodup_cons, List.mem_append, not_or] at hnodup
  obtain ⟨⟨hnotfront, hnotrest⟩, -⟩ := hnodup
  refine ⟨List.mem_range.1 hi, haccept, front.map (entryAt bytes),
    rest.map (entryAt bytes), ?_, ?_, ?_⟩
  · unfold rowOf
    rw [hrange, List.map_append, List.map_cons]
  · intro e he
    obtain ⟨j, hj, rfl⟩ := List.mem_map.1 he
    simpa using hfront j hj
  · intro next hnext
    have hsame : ∀ {part : List ℕ}, i ∉ part →
        part.map (entryAt next) = part.map (entryAt bytes) := by
      intro part hpart
      refine List.map_congr_left fun j hj => hnext j ?_
      rintro rfl
      exact hpart hj
    unfold rowOf
    rw [hrange, List.map_append, List.map_cons, hsame hnotfront,
      hsame hnotrest]

theorem slot_le (hi : i < v.entriesPerCluster) :
    32 * i + 32 ≤ v.bytesPerCluster := by
  unfold Volume.entriesPerCluster at hi
  omega

theorem rowOf_congr
    {other : ByteStore}
    (hsame : ∀ k < v.bytesPerCluster, other k = bytes k) :
    rowOf v.entriesPerCluster other = rowOf v.entriesPerCluster bytes := by
  unfold rowOf
  refine List.map_congr_left fun j hj => ?_
  have hfit := slot_le (List.mem_range.1 hj)
  funext k
  unfold entryAt
  split_ifs with hk
  · exact hsame _ (by omega)
  · rfl

theorem row_writeCluster_same
    (hgeometry : v.bpb.Geometry) (hcluster : v.bpb.Has cluster)
    (bytes : ByteStore) :
    (writeCluster v cluster bytes).row cluster =
      rowOf v.entriesPerCluster bytes := by
  unfold Volume.row
  rw [writeCluster_clusterBytes_same hgeometry hcluster]
  have hwidth : (writeCluster v cluster bytes).entriesPerCluster =
      v.entriesPerCluster := rfl
  rw [hwidth]
  refine rowOf_congr fun k hk => ?_
  rw [← bytesPerCluster_eq hgeometry, blit_inside _ _ (Nat.zero_le k) (by omega)]
  rfl

theorem row_writeCluster_of_ne
    (hgeometry : v.bpb.Geometry) (hcluster : v.bpb.Has cluster)
    {other : ℕ} (hother : v.bpb.Has other) (hne : other ≠ cluster)
    (bytes : ByteStore) :
    (writeCluster v cluster bytes).row other = v.row other := by
  unfold Volume.row
  rw [writeCluster_clusterBytes_of_ne hgeometry hcluster hother hne]
  rfl

theorem entryAt_blit_same
    (bytes : ByteStore) {e : Entry} (he : ∀ k, 32 ≤ k → e k = 0) (i : ℕ) :
    entryAt (bytes.blit (32 * i) e 32) i = e := by
  funext k
  unfold entryAt
  split_ifs with hk
  · rw [blit_inside _ _ (by omega) (by omega), Nat.add_sub_cancel_left]
  · exact (he k (by omega)).symm

theorem entryAt_blit_of_ne
    (bytes : ByteStore) (e : Entry) {j : ℕ} (hne : j ≠ i) :
    entryAt (bytes.blit (32 * i) e 32) j = entryAt bytes j := by
  funext k
  unfold entryAt
  split_ifs with hk
  · exact blit_outside _ _ (by omega)
  · rfl

/-! ## Frames -/

/-- A directory whose chain is left alone keeps its slots. -/
theorem Volume.Frame.slots
    {entries clusters : Set ℕ} (h : v.Frame next entries clusters)
    (hgeometry : v.bpb.Geometry) (hends : v.Ends first)
    (hentries : ∀ x ∈ v.chain first, x ∉ entries)
    (hclusters : ∀ x ∈ v.chain first, x ∉ clusters) :
    next.slots first = v.slots first := by
  have hrow : ∀ x ∈ v.chain first, next.row x = v.row x := by
    intro x hx
    unfold Volume.row Volume.entriesPerCluster
    rw [h.bytesPerCluster, h.clusterBytes x (hends.cluster x hx)
      (hclusters x hx)]
  unfold Volume.slots
  rw [(hends.frame h hgeometry hentries).2]
  exact List.flatMap_congr hrow

/-! ## Lookup -/

theorem find?_slots
    (v : Volume) (first : ℕ) (accept : Entry → Bool) :
    (v.slots first).find? accept =
      (v.chain first).findSome? (fun x => (v.row x).find? accept) := by
  unfold Volume.slots
  rw [List.find?_flatMap]

theorem findEntryInCluster_eq
    (hgeometry : v.bpb.Geometry) (hends : v.Ends first) (name : List UInt8) :
    findEntryInCluster v first name = .ok ((v.live first).find? (fun e =>
      !e.isLongName && decide (e.name = name))) := by
  have haccept : (fun e : Entry => e.isEnd ||
      (!e.isDeleted && !e.isLongName && decide (e.name = name))) =
        fun e => e.isEnd || (!e.isDeleted &&
          (!e.isLongName && decide (e.name = name))) := by
    funext e
    rw [Bool.and_assoc]
  unfold findEntryInCluster
  simp only [haccept]
  generalize haccept : (fun e : Entry => e.isEnd || (!e.isDeleted &&
    (!e.isLongName && decide (e.name = name)))) = accept
  have hlive : (v.live first).find? (fun e =>
      !e.isLongName && decide (e.name = name)) =
        ((v.slots first).find? accept).filter (fun e => !e.isEnd) := by
    unfold Volume.live
    rw [find?_liveSlots, haccept]
  have hwalk : (v.chain first).findSome? (fun x => ((v.row x).find? accept).map
      (fun e => if e.isEnd = true then none else some e)) =
        ((v.slots first).find? accept).map
          (fun e => if e.isEnd = true then none else some e) := by
    rw [find?_slots, List.map_findSome?]
    rfl
  rw [walkChain_eq hgeometry hends ?visits, hlive, hwalk]
  · cases (v.slots first).find? accept with
    | none => rfl
    | some e =>
        simp only [Option.map_some, bind, Except.bind, Option.filter_some]
        cases e.isEnd <;> rfl
  case visits =>
    intro x _
    unfold Volume.row
    rw [firstEntry_eq_find?]
    cases firstEntry v (v.clusterBytes x) accept with
    | none => rfl
    | some i =>
        simp only [Option.map_some]
        split_ifs <;> rfl

/-! ## The test for entries -/

theorem entries_eq_nil_iff :
    v.entries first = [] ↔
      (v.live first).find? (fun e => decide (e.name ∉ dotNames)) = none := by
  unfold Volume.entries
  rw [List.filter_eq_nil_iff, List.find?_eq_none]

/-- `fat32_delete` keeps a directory that has an entry besides `.` and `..`. -/
theorem hasEntries_eq
    (hgeometry : v.bpb.Geometry) (hends : v.Ends first)
    (hclosed : v.Closed first) :
    hasEntries v first = .ok (decide (v.entries first ≠ [])) := by
  generalize haccept : (fun e : Entry => e.isEnd ||
    (!e.isDeleted && decide (e.name ∉ dotNames))) = accept
  have hlive : (v.live first).find? (fun e => decide (e.name ∉ dotNames)) =
      ((v.slots first).find? accept).filter (fun e => !e.isEnd) := by
    unfold Volume.live
    rw [find?_liveSlots, haccept]
  have hrows := hclosed.findSome?_rows blankEntry_isEnd
    (fun e => !e.isDeleted && decide (e.name ∉ dotNames))
  rw [haccept] at hrows
  have hwalk : (v.chain first).findSome? (fun x =>
      (((v.row x).find? accept).filter (fun e => !e.isEnd)).map
        (fun _ => ())) =
          (((v.slots first).find? accept).filter (fun e => !e.isEnd)).map
            (fun _ => ()) := by
    unfold Volume.slots
    rw [← hrows, List.map_findSome?]
    rfl
  unfold hasEntries
  simp only [haccept]
  rw [walkChain_eq hgeometry hends ?visits, hwalk, ← hlive]
  · cases hfound : (v.live first).find?
        (fun e => decide (e.name ∉ dotNames)) with
    | none =>
        have hempty := entries_eq_nil_iff.2 hfound
        simp [hempty, bind, Except.bind, pure, Except.pure]
    | some e =>
        have hsome : v.entries first ≠ [] := by
          intro hempty
          rw [entries_eq_nil_iff.1 hempty] at hfound
          cases hfound
        simp [hsome, bind, Except.bind, pure, Except.pure]
  case visits =>
    intro x _
    unfold Volume.row
    rw [firstEntry_eq_find?]
    cases firstEntry v (v.clusterBytes x) accept with
    | none => rfl
    | some i =>
        simp only [Option.map_some, Option.filter_some]
        cases (entryAt (v.clusterBytes x) i).isEnd <;> rfl

/-! ## Storing a slot -/

theorem slots_writeCluster
    (hgeometry : v.bpb.Geometry) (hends : v.Ends first) {front rest : List ℕ}
    (hsplit : v.chain first = front ++ cluster :: rest) (bytes : ByteStore) :
    (writeCluster v cluster bytes).Ends first ∧
      (writeCluster v cluster bytes).chain first = v.chain first ∧
      (writeCluster v cluster bytes).slots first =
        front.flatMap v.row ++ rowOf v.entriesPerCluster bytes ++
          rest.flatMap v.row := by
  have hhas : ∀ x ∈ front ++ cluster :: rest, v.bpb.Has x :=
    hsplit ▸ hends.cluster
  have hcluster : v.bpb.Has cluster :=
    hhas cluster (List.mem_append_right _ List.mem_cons_self)
  have hnodup := hends.chain.nodup
  rw [hsplit, List.nodup_middle, List.nodup_cons, List.mem_append,
    not_or] at hnodup
  obtain ⟨⟨hfront, hrest⟩, -⟩ := hnodup
  have hframe := Volume.frame_writeCluster hgeometry hcluster bytes
  obtain ⟨hnext, hchain⟩ := hends.frame hframe hgeometry
    (fun _ _ => Set.notMem_empty _)
  have hrows : ∀ {part : List ℕ}, cluster ∉ part →
      (∀ x ∈ part, v.bpb.Has x) →
        part.flatMap (writeCluster v cluster bytes).row =
          part.flatMap v.row := by
    intro part hpart hin
    refine List.flatMap_congr fun x hx => ?_
    refine row_writeCluster_of_ne hgeometry hcluster (hin x hx) ?_ bytes
    rintro rfl
    exact hpart hx
  refine ⟨hnext, hchain, ?_⟩
  unfold Volume.slots
  rw [hchain, hsplit, List.flatMap_append, List.flatMap_cons,
    row_writeCluster_same hgeometry hcluster,
    hrows hfront fun x hx => hhas x (List.mem_append_left _ hx),
    hrows hrest fun x hx =>
      hhas x (List.mem_append_right _ (List.mem_cons_of_mem _ hx)),
    List.append_assoc]

/-! ## Deleting an entry -/

/-- `next` is `v` with the entry `e` of a directory marked as deleted. -/
structure Erases (v next : Volume) (first : ℕ) (e : Entry) : Prop where
  frame : v.Frame next ∅ {x | x ∈ v.chain first}
  closed : next.Closed first
  live : ∃ before after, v.live first = before ++ e :: after ∧
    next.live first = before ++ after

theorem entryAt_put8
    (bytes : ByteStore) (i : ℕ) :
    (entryAt (bytes.put8 (32 * i) 0xE5) i).isEnd = false ∧
      (entryAt (bytes.put8 (32 * i) 0xE5) i).isDeleted = true ∧
      ∀ j, j ≠ i → entryAt (bytes.put8 (32 * i) 0xE5) j = entryAt bytes j := by
  have hfirst : entryAt (bytes.put8 (32 * i) 0xE5) i 0 = 0xE5 := by
    unfold entryAt
    rw [if_pos (by omega), Nat.add_zero, put8_same]
    rfl
  refine ⟨?_, ?_, fun j hj => ?_⟩
  · unfold Entry.isEnd
    rw [hfirst]
    rfl
  · unfold Entry.isDeleted
    rw [hfirst]
    rfl
  · funext k
    unfold entryAt
    split_ifs with hk
    · exact put8_apply_of_ne _ (by omega)
    · rfl

theorem removeEntry_ok
    (hgeometry : v.bpb.Geometry) (hends : v.Ends first)
    (hclosed : v.Closed first)
    (hfind : (v.live first).find? (fun f => decide (f.name = name)) = some e) :
    ∃ next, removeEntry v first name = .ok next ∧ Erases v next first e := by
  obtain ⟨hmem, hname⟩ : e ∈ v.live first ∧ e.name = name :=
    ⟨List.mem_of_find?_eq_some hfind, by simpa using List.find?_some hfind⟩
  obtain ⟨-, hend, hdeleted⟩ := mem_liveSlots hmem
  generalize haccept : (fun f : Entry =>
    f.isEnd || decide (f.name = name)) = accept
  have hsame : (fun f : Entry => f.isEnd ||
      (!f.isDeleted && decide (f.name = name))) = accept := by
    rw [← haccept]
    funext f
    by_cases hf : f.name = name
    · rw [Entry.isDeleted_congr (hf.trans hname.symm), hdeleted]
      simp
    · simp [hf]
  have hslots : ((v.slots first).find? accept).filter (fun f => !f.isEnd) =
      some e := by
    rw [← hsame, ← find?_liveSlots]
    exact hfind
  have hrows := hclosed.findSome?_rows blankEntry_isEnd
    (fun f => decide (f.name = name))
  rw [haccept] at hrows
  have hfound := hrows.trans hslots
  obtain ⟨front, cluster, rest, hsplit, hcluster, hfront⟩ :=
    List.findSome?_eq_some_iff.1 hfound
  unfold Volume.row at hcluster
  rw [firstEntry_eq_find?, Option.filter_eq_some_iff] at hcluster
  obtain ⟨hfirst, -⟩ := hcluster
  obtain ⟨i, hi, hentry⟩ := Option.map_eq_some_iff.1 hfirst
  have hhas : v.bpb.Has cluster := hends.cluster cluster
    (hsplit ▸ List.mem_append_right _ List.mem_cons_self)
  generalize hbytes : (v.clusterBytes cluster).put8 (32 * i) 0xE5 = bytes
  have hwalk : (v.chain first).findSome? (fun x =>
      (firstEntry v (v.clusterBytes x) accept).bind fun i =>
        if (entryAt (v.clusterBytes x) i).isEnd = true then none
        else some (writeCluster v x
          ((v.clusterBytes x).put8 (32 * i) 0xE5))) =
            some (writeCluster v cluster bytes) := by
    refine List.findSome?_eq_some_iff.2 ⟨front, cluster, rest, hsplit, ?_, ?_⟩
    · rw [hi, Option.bind_some, hentry, if_neg (by simp [hend]), hbytes]
    · intro x hx
      have hnone := hfront x hx
      unfold Volume.row at hnone
      rw [firstEntry_eq_find?] at hnone
      cases hj : firstEntry v (v.clusterBytes x) accept with
      | none => rfl
      | some j =>
          rw [hj, Option.map_some, Option.filter_some] at hnone
          rw [Option.bind_some]
          cases hmarker : (entryAt (v.clusterBytes x) j).isEnd with
          | true => rfl
          | false =>
              rw [if_pos (by simp [hmarker])] at hnone
              cases hnone
  refine ⟨writeCluster v cluster bytes, ?_, ?_⟩
  · unfold removeEntry
    simp only [haccept]
    rw [if_neg (by have := hends.start.1; omega),
      walkChain_eq hgeometry hends ?visits, hwalk]
    · rfl
    case visits =>
      intro x _
      cases firstEntry v (v.clusterBytes x) accept with
      | none => rfl
      | some i =>
          simp only [Option.bind_some]
          split_ifs <;> rfl
  · obtain ⟨-, -, before, after, hrow, -, hnext⟩ := row_split hi
    obtain ⟨hmark, hgone, hothers⟩ := entryAt_put8 (v.clusterBytes cluster) i
    rw [hbytes] at hmark hgone hothers
    have hold : v.slots first = (front.flatMap v.row ++ before) ++
        e :: (after ++ rest.flatMap v.row) := by
      have hcluster : v.row cluster = before ++ e :: after := by
        unfold Volume.row
        rw [hrow, hentry]
      unfold Volume.slots
      rw [hsplit, List.flatMap_append, List.flatMap_cons, hcluster]
      simp
    have hnew : (writeCluster v cluster bytes).slots first =
        (front.flatMap v.row ++ before) ++
          entryAt bytes i :: (after ++ rest.flatMap v.row) := by
      rw [(slots_writeCluster hgeometry hends hsplit bytes).2.2,
        hnext bytes hothers]
      simp
    have hclosed' := hclosed
    unfold Volume.Closed at hclosed'
    rw [hold] at hclosed'
    obtain ⟨hkeep, hbefore, hafter⟩ := hclosed'.giveUp
      (hclosed'.open_before blankEntry_isEnd hend) ⟨hend, hdeleted⟩
      ⟨hmark, hgone⟩
    rw [← hold] at hbefore
    rw [← hnew] at hkeep hafter
    refine ⟨(Volume.frame_writeCluster hgeometry hhas bytes).mono le_rfl ?_,
      hkeep, _, _, hbefore, hafter⟩
    rintro x rfl
    exact hsplit ▸ List.mem_append_right _ List.mem_cons_self

end

end ClOs.Fat32
