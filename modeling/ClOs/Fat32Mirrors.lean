import ClOs.Fat32Calls

/-!
# The copies of the table

Every change of a table goes through `set_next_cluster`, which stores the link in all
copies and leaves their top four bits alone.  Copies that agree therefore go on
agreeing, as long as the clusters of the volume stay within its data.
-/

namespace ClOs.Fat32

open ByteStore

/-- The laws of one entry, and the copies of the table over a run of calls. -/
theorem tables_mirrored :
    (∀ (v : Volume) (c n : ℕ), v.bpb.Tables → v.bpb.HasEntry c →
      ∃ next, setNextCluster v c n = .ok next ∧
        getNextCluster next c = .ok (n &&& 0x0FFFFFFF) ∧
        (∀ copy < v.bpb.fatCount,
          next.fatEntry copy c &&& 0xF0000000 =
            v.fatEntry copy c &&& 0xF0000000) ∧
        (∀ c', v.bpb.HasEntry c' → c' ≠ c →
          getNextCluster next c' = getNextCluster v c') ∧
        (∀ k, k < 512 * v.bpb.reservedSectorCount ∨
          512 * v.bpb.dataStart ≤ k → next.disk k = v.disk k)) ∧
    (∀ (v : Volume) (calls : List Call), v.WellFormed →
      v.bpb.Has v.lastFreeCluster → v.Mirrored →
      (∀ call ∈ calls, Canonical call.path ∧ components call.path ≠ []) →
        ∃ next, runCalls calls v = .ok next ∧ next.Mirrored) := by
  constructor
  · intro v c n htables hentry
    obtain ⟨next, hset, hlinks⟩ := setNextCluster_ok htables hentry n
    have hnext : next.bpb.Tables := hlinks.bpb ▸ htables
    refine ⟨next, hset, ?_, ?_, ?_, fun k hk => hlinks.outside hentry hk⟩
    · rw [getNextCluster_eq hnext (hlinks.bpb ▸ hentry),
        hlinks.link_same htables, and_0FFFFFFF]
    · intro copy hcopy
      rw [hlinks.entry copy hcopy, tableValue_top]
    · intro c' hentry' hne
      rw [getNextCluster_eq hnext (hlinks.bpb ▸ hentry'),
        getNextCluster_eq htables hentry',
        hlinks.link_of_ne hentry hentry'.1 hne]
  · intro v calls hwell hcursor hmirrored hcalls
    have hstep : ∀ (w : Volume) (call : Call),
        w.Sound ∧ w.bpb.Has w.lastFreeCluster ∧ w.Mirrored →
        Named call.path → ∃ next, call.run w = .ok next ∧ next.Sound ∧
          next.bpb.Has next.lastFreeCluster ∧ next.Mirrored := by
      rintro w call ⟨hsound, hhas, hagree⟩ hpath
      obtain ⟨next, hrun, hnext, hframe⟩ := call.run_ok hsound hhas hpath
      refine ⟨next, hrun, hnext, ?_, hframe.mirrored hagree⟩
      rw [hframe.bpb]
      exact hframe.cursor hhas
    obtain ⟨next, hrun, -, -, hagree⟩ := runCalls_keeps hstep
      (fun call hcall _ _ => (hcalls call hcall).1.named (hcalls call hcall).2)
      ⟨hwell.toSound, hcursor, hmirrored⟩
    exact ⟨next, hrun, hagree⟩

/-- A volume with two copies of the table and an empty root directory. -/
def bareRoot : Volume where
  bpb := ofWords [(12, 0x00010102), (16, 2), (32, 74), (36, 1), (44, 2)]
  disk := ofWords [(520, 0x0FFFFFF8), (1032, 0x0FFFFFF8)]
  lastFreeCluster := 72
  garbage _ := 0

theorem bareRoot_listed : bareRoot.Listed [2] := by decide +kernel

theorem bareRoot_mirrored : bareRoot.Mirrored := by
  unfold Volume.Mirrored
  decide +kernel

/-- A link is stored there, and a file is written and deleted in a new directory. -/
theorem tables_mirrored_bareRoot :
    (∃ next, setNextCluster bareRoot 3 5 = .ok next ∧
      getNextCluster next 3 = .ok (5 &&& 0x0FFFFFFF)) ∧
    ∃ next, runCalls [.createDirectory [68], .write [68, 47, 65] (fun _ => 1) 600,
      .delete [68, 47, 65]] bareRoot = .ok next ∧ next.Mirrored := by
  obtain ⟨hlaws, hruns⟩ := tables_mirrored
  have hgeometry := bareRoot_listed.geometry
  constructor
  · obtain ⟨next, hset, hget, -⟩ := hlaws bareRoot 3 5 hgeometry.tables
      (by decide +kernel)
    exact ⟨next, hset, hget⟩
  · refine hruns bareRoot _ bareRoot_listed.wellFormed (by decide +kernel)
      bareRoot_mirrored fun call hcall => ?_
    simp only [List.mem_cons, List.not_mem_nil, or_false] at hcall
    rcases hcall with rfl | rfl | rfl
    · exact ⟨⟨by decide, by decide, by decide, by decide⟩, by decide⟩
    · exact ⟨⟨by decide, by decide, by decide, by decide⟩, by decide⟩
    · exact ⟨⟨by decide, by decide, by decide, by decide⟩, by decide⟩

/-- A table of more entries than a word has offsets for. -/
def longTable : Volume where
  bpb := ofWords [(12, 0x00010102), (16, 1), (36, 0x01000000), (44, 2)]
  disk _ := 0
  lastFreeCluster := 2
  garbage _ := 0

/-- The bytes of a directory entry for the file `B` at cluster 200, in the second
cluster of a file. -/
def forged : ByteStore :=
  ofWords [(512, 0x20202042), (516, 0x20202020), (520, 0x20202020),
    (536, 0x00C80000)]

/-- On the long table, storing the link of cluster 0 changes that of cluster
`0x40000000`.  On tables beyond the reach of 28-bit sector numbers, storing the link
of cluster 130 changes that of cluster 2.  And when the empty root directory has been
deleted, its cluster goes to a file, and deleting what the bytes of this file
describe makes the copies of the table differ. -/
theorem setNextCluster_wraps :
    (longTable.bpb.bytesPerSector = 512 ∧
      0x40000000 < longTable.bpb.sectorsPerFat * 128 ∧
      ∃ next, setNextCluster longTable 0 5 = .ok next ∧
        getNextCluster longTable 0x40000000 = .ok 0 ∧
        getNextCluster next 0x40000000 = .ok 5) ∧
    (overlapping.bpb.bytesPerSector = 512 ∧
      130 < overlapping.bpb.sectorsPerFat * 128 ∧
      ∃ next, setNextCluster overlapping 130 0 = .ok next ∧
        getNextCluster overlapping 2 = .ok 0x0FFFFFFF ∧
        getNextCluster next 2 = .ok 0) ∧
    (bareRoot.WellFormed ∧ bareRoot.Mirrored ∧
      ∃ next, runCalls [.delete [47], .write [65] forged 1024, .delete [66]]
        bareRoot = .ok next ∧ ¬next.Mirrored) := by
  refine ⟨⟨by decide +kernel, by decide +kernel, ?_⟩,
    ⟨by decide +kernel, by decide +kernel, ?_⟩,
    bareRoot_listed.wellFormed, bareRoot_mirrored, ?_⟩
  · have hset : (setNextCluster longTable 0 5).satisfies (fun next =>
        (getNextCluster next 0x40000000).satisfies (· = 5)) = true := by
      decide +kernel
    have hold : (getNextCluster longTable 0x40000000).satisfies (· = 0) =
        true := by
      decide +kernel
    obtain ⟨next, hnext, hget⟩ := Outcome.exists_of_satisfies hset
    obtain ⟨new, hnew, hsame⟩ := Outcome.exists_of_satisfies hget
    obtain ⟨old, hbefore, hzero⟩ := Outcome.exists_of_satisfies hold
    rw [of_decide_eq_true hsame] at hnew
    rw [of_decide_eq_true hzero] at hbefore
    exact ⟨next, hnext, hbefore, hnew⟩
  · have hset : (setNextCluster overlapping 130 0).satisfies (fun next =>
        (getNextCluster next 2).satisfies (· = 0)) = true := by
      decide +kernel
    have hold : (getNextCluster overlapping 2).satisfies (· = 0x0FFFFFFF) =
        true := by
      decide +kernel
    obtain ⟨next, hnext, hget⟩ := Outcome.exists_of_satisfies hset
    obtain ⟨new, hnew, hsame⟩ := Outcome.exists_of_satisfies hget
    obtain ⟨old, hbefore, hmark⟩ := Outcome.exists_of_satisfies hold
    rw [of_decide_eq_true hsame] at hnew
    rw [of_decide_eq_true hmark] at hbefore
    exact ⟨next, hnext, hbefore, hnew⟩
  · have hrun : (runCalls [.delete [47], .write [65] forged 1024,
        .delete [66]] bareRoot).satisfies (fun next =>
          decide (1 < next.bpb.fatCount) && decide (72 < 128 * next.bpb.sectorsPerFat) &&
            decide (next.fatEntry 1 72 % 0x10000000 ≠ next.link 72)) =
              true := by
      decide +kernel
    obtain ⟨next, hnext, hdiffer⟩ := Outcome.exists_of_satisfies hrun
    simp only [Bool.and_eq_true, decide_eq_true_eq] at hdiffer
    obtain ⟨⟨hcopy, hentry⟩, hne⟩ := hdiffer
    exact ⟨next, hnext, fun hmirrored => hne (hmirrored 1 hcopy 72 hentry)⟩

end ClOs.Fat32
