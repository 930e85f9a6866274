import ClOs.Fat32Chains

/-!
# Taking free clusters

`find_free_cluster` goes once round the volume from where the last search ended.
It does not mark what it returns, so the last cluster that `fat32_write_file` has
taken is still free, and it comes up again when no other one is left.
-/

namespace ClOs.Fat32

open ByteStore

namespace Bpb

/-- The cluster some steps behind another one, round the volume. -/
def turn (bpb : Bpb) (start count : ℕ) : ℕ :=
  2 + (start - 2 + count) % bpb.clusters

section

variable {bpb : Bpb} {start x i j : ℕ}

theorem sectors_lt (bpb : Bpb) : bpb.sectors < 4294967296 := by
  have htotal : bpb.totalSectors < 65536 := ByteStore.le16_lt _ _
  have hlarge : bpb.largeSectorCount < 4294967296 := ByteStore.le32_lt _ _
  unfold sectors
  split_ifs <;> omega

theorem Has.clusters_pos (h : bpb.Has start) : 0 < bpb.clusters := by
  obtain ⟨hlow, hhigh⟩ := h
  omega

theorem turn_has (h : bpb.Has start) (count : ℕ) :
    bpb.Has (bpb.turn start count) := by
  have hmod := Nat.mod_lt (start - 2 + count) h.clusters_pos
  unfold turn
  exact ⟨by omega, by omega⟩

theorem turn_of_lt (hlt : start - 2 + i < bpb.clusters) :
    bpb.turn start i = 2 + (start - 2 + i) := by
  unfold turn
  rw [Nat.mod_eq_of_lt hlt]

theorem turn_zero (h : bpb.Has start) : bpb.turn start 0 = start := by
  obtain ⟨hlow, hhigh⟩ := h
  rw [turn_of_lt (by omega)]
  omega

theorem turn_turn (bpb : Bpb) (start i j : ℕ) :
    bpb.turn (bpb.turn start i) j = bpb.turn start (i + j) := by
  unfold turn
  rw [Nat.add_sub_cancel_left, Nat.mod_add_mod, Nat.add_assoc]

theorem turn_clusters (h : bpb.Has start) :
    bpb.turn start bpb.clusters = start := by
  have hstart := turn_zero h
  unfold turn at hstart ⊢
  rwa [Nat.add_mod_right]

theorem exists_turn (h : bpb.Has start) (hx : bpb.Has x) :
    ∃ k < bpb.clusters, bpb.turn start k = x := by
  obtain ⟨hlow, hhigh⟩ := h
  obtain ⟨hxlow, hxhigh⟩ := hx
  rcases Nat.lt_or_ge x start with hlt | hge
  · refine ⟨x + bpb.clusters - start, by omega, ?_⟩
    unfold turn
    rw [show start - 2 + (x + bpb.clusters - start) =
      x - 2 + bpb.clusters by omega, Nat.add_mod_right,
      Nat.mod_eq_of_lt (by omega)]
    omega
  · refine ⟨x - start, by omega, ?_⟩
    rw [turn_of_lt (by omega)]
    omega

theorem turn_inj
    (h : bpb.Has start) (hi : i < bpb.clusters) (hj : j < bpb.clusters)
    (hsame : bpb.turn start i = bpb.turn start j) : i = j := by
  obtain ⟨hlow, hhigh⟩ := h
  have hmods : (start - 2 + i) % bpb.clusters =
      (start - 2 + j) % bpb.clusters := by
    unfold turn at hsame
    omega
  have hmod : i ≡ j [MOD bpb.clusters] := Nat.ModEq.add_left_cancel' _ hmods
  rwa [Nat.ModEq, Nat.mod_eq_of_lt hi, Nat.mod_eq_of_lt hj] at hmod

end

end Bpb

/-- The clusters that a search can return. -/
def Volume.freeClusters (v : Volume) : Finset ℕ :=
  (Finset.Ico 2 (v.bpb.clusters + 2)).filter v.Free

section

variable {v w found next : Volume} {start cluster first prev last x : ℕ}
  {front cs : List ℕ}

theorem Volume.mem_freeClusters : x ∈ v.freeClusters ↔ v.Free x := by
  unfold Volume.freeClusters
  rw [Finset.mem_filter, Finset.mem_Ico]
  exact ⟨fun h => h.2, fun h => ⟨h.1, h⟩⟩

theorem Volume.card_freeClusters_eq_zero :
    v.freeClusters.card = 0 ↔ ∀ x, ¬v.Free x := by
  rw [Finset.card_eq_zero, Finset.eq_empty_iff_forall_notMem]
  simp only [Volume.mem_freeClusters]

/-! ## One search -/

theorem advance_eq
    (h : v.bpb.Numbered) (hstart : v.bpb.Has start) :
    advance v.bpb.clusters start = v.bpb.turn start 1 := by
  have hclusters := h.entries
  obtain ⟨hlow, hhigh⟩ := hstart
  unfold advance
  rw [u32_of_lt (by omega), u32_of_lt (by omega)]
  split_ifs with hwrap
  · unfold Bpb.turn
    rw [show start - 2 + 1 = v.bpb.clusters by omega, Nat.mod_self]
  · rw [Bpb.turn_of_lt (by omega)]
    omega

theorem totalClusters_eq
    (h : v.bpb.Numbered) (hpos : 0 < v.bpb.clusters) :
    totalClusters v = .ok v.bpb.clusters := by
  have hdata := h.data
  have hbound := v.bpb.sectors_lt
  have hcluster : v.bpb.sectorsPerCluster ≠ 0 := by
    intro hzero
    unfold Bpb.clusters at hpos
    rw [hzero, Nat.div_zero] at hpos
    exact absurd hpos (lt_irrefl 0)
  have hsectors : (if v.bpb.totalSectors ≠ 0 then v.bpb.totalSectors
      else v.bpb.largeSectorCount) = v.bpb.sectors := rfl
  unfold totalClusters
  simp only [hsectors]
  rw [if_neg hcluster]
  unfold Bpb.clusters
  unfold Bpb.dataStart at hdata ⊢
  generalize v.bpb.sectors = sectors at hdata hbound ⊢
  have hreserved : sub32 sectors v.bpb.reservedSectorCount =
      sectors - v.bpb.reservedSectorCount :=
    sub32_of_le (by omega) (by omega)
  rw [hreserved, u32_of_lt (by omega), sub32_of_le (by omega) (by omega),
    Nat.sub_sub]

theorem searchFree_eq
    (h : v.bpb.Numbered) (hstart : v.bpb.Has start) (count : ℕ) :
    (∃ k < count, v.Free (v.bpb.turn start k) ∧
        (∀ j < k, ¬v.Free (v.bpb.turn start j)) ∧
        searchFree v v.bpb.clusters count start =
          .ok (v.bpb.turn start k, v.bpb.turn start (k + 1))) ∨
      ((∀ j < count, ¬v.Free (v.bpb.turn start j)) ∧
        searchFree v v.bpb.clusters count start =
          .ok (0, v.bpb.turn start count)) := by
  induction count generalizing start with
  | zero =>
      refine .inr ⟨fun j hj => absurd hj (Nat.not_lt_zero j), ?_⟩
      rw [searchFree, Bpb.turn_zero hstart]
      rfl
  | succ count ih =>
      have hentries := h.entries
      have hlink : getNextCluster v start = .ok (v.link start) :=
        getNextCluster_of_lt h.sector (by have := hstart.2; omega)
      have hzero := Bpb.turn_zero hstart
      rw [searchFree, hlink, advance_eq h hstart]
      simp only [bind, Except.bind, pure, Except.pure]
      by_cases hfree : v.link start = 0
      · rw [if_pos hfree]
        refine .inl ⟨0, Nat.succ_pos _, ?_, ?_, ?_⟩
        · rw [hzero]
          exact ⟨hstart, hfree⟩
        · exact fun j hj => absurd hj (Nat.not_lt_zero j)
        · rw [hzero]
      · rw [if_neg hfree]
        have hfirst : ¬v.Free (v.bpb.turn start 0) := by
          rw [hzero]
          exact fun hzero => hfree hzero.2
        have hbefore : ∀ {bound : ℕ},
            (∀ j < bound, ¬v.Free (v.bpb.turn (v.bpb.turn start 1) j)) →
              ∀ j < bound + 1, ¬v.Free (v.bpb.turn start j) := by
          intro bound hrest j hj
          cases j with
          | zero => exact hfirst
          | succ j =>
              have hnot := hrest j (by omega)
              rwa [Bpb.turn_turn, Nat.add_comm 1 j] at hnot
        rcases ih (Bpb.turn_has hstart 1) with
          ⟨k, hk, hfound, hpassed, hsearch⟩ | ⟨hpassed, hsearch⟩
        · rw [Bpb.turn_turn, Nat.add_comm 1 k] at hfound
          rw [Bpb.turn_turn, Bpb.turn_turn, Nat.add_comm 1 k,
            Nat.add_comm 1 (k + 1)] at hsearch
          exact .inl ⟨k + 1, by omega, hfound, hbefore hpassed, hsearch⟩
        · rw [Bpb.turn_turn, Nat.add_comm 1 count] at hsearch
          exact .inr ⟨hbefore hpassed, hsearch⟩

theorem findFreeCluster_none
    (h : v.bpb.Numbered) (hcursor : v.bpb.Has v.lastFreeCluster)
    (hfull : ∀ x, ¬v.Free x) : findFreeCluster v = .ok (0, v) := by
  unfold findFreeCluster
  rw [totalClusters_eq h hcursor.clusters_pos]
  rcases searchFree_eq h hcursor v.bpb.clusters with
    ⟨k, -, hfree, -, -⟩ | ⟨-, hsearch⟩
  · exact absurd hfree (hfull _)
  · simp only [hsearch, bind, Except.bind, pure, Except.pure,
      Bpb.turn_clusters hcursor]

/-- A search on a volume with a free cluster takes one, and takes the one just
passed only when there is no other. -/
theorem findFreeCluster_some
    (h : v.bpb.Numbered) (hcursor : v.bpb.Has v.lastFreeCluster)
    (hfree : ∃ x, v.Free x) :
    ∃ x, v.Free x ∧ findFreeCluster v =
        .ok (x, { v with lastFreeCluster := v.bpb.turn x 1 }) ∧
      (v.lastFreeCluster = v.bpb.turn x 1 → ∀ y, v.Free y → y = x) := by
  unfold findFreeCluster
  rw [totalClusters_eq h hcursor.clusters_pos]
  rcases searchFree_eq h hcursor v.bpb.clusters with
    ⟨k, hk, hfound, hpassed, hsearch⟩ | ⟨hnone, -⟩
  · refine ⟨v.bpb.turn v.lastFreeCluster k, hfound, ?_, ?_⟩
    · simp only [hsearch, bind, Except.bind, pure, Except.pure, Bpb.turn_turn]
    · intro hround y hy
      obtain ⟨j, hj, rfl⟩ := Bpb.exists_turn hcursor hy.1
      rcases Nat.lt_or_ge j k with hlt | hge
      · exact absurd hy (hpassed j hlt)
      · have hlast : k + 1 = v.bpb.clusters := by
          rw [Bpb.turn_turn] at hround
          by_contra hne
          have hzero := Bpb.turn_zero hcursor
          have hinj := Bpb.turn_inj hcursor hcursor.clusters_pos
            (by omega : k + 1 < v.bpb.clusters) (hzero.trans hround)
          omega
        rw [show j = k by omega]
  · obtain ⟨x, hx⟩ := hfree
    obtain ⟨j, hj, rfl⟩ := Bpb.exists_turn hcursor hx.1
    exact absurd hx (hnone j hj)

/-- The search ends with the cursor on the volume and changes nothing else.  It
returns 0 exactly when no cluster is free, and otherwise the first free cluster
from the cursor on, round the volume. -/
theorem findFreeCluster_first
    (h : v.bpb.Numbered) (hcursor : v.bpb.Has v.lastFreeCluster) :
    ∃ cluster next, findFreeCluster v = .ok (cluster, next) ∧
      next = { v with lastFreeCluster := next.lastFreeCluster } ∧
      v.bpb.Has next.lastFreeCluster ∧
      (cluster = 0 ↔ ∀ x, ¬v.Free x) ∧
      (cluster ≠ 0 → v.Free cluster ∧ ∃ k < v.bpb.clusters,
        cluster = v.bpb.turn v.lastFreeCluster k ∧
          ∀ j < k, ¬v.Free (v.bpb.turn v.lastFreeCluster j)) := by
  unfold findFreeCluster
  rw [totalClusters_eq h hcursor.clusters_pos]
  rcases searchFree_eq h hcursor v.bpb.clusters with
    ⟨k, hk, hfound, hpassed, hsearch⟩ | ⟨hnone, hsearch⟩
  · simp only [hsearch, bind, Except.bind, pure, Except.pure]
    have hpos : v.bpb.turn v.lastFreeCluster k ≠ 0 := by
      have := hfound.1.1
      omega
    exact ⟨_, _, rfl, rfl, Bpb.turn_has hcursor (k + 1),
      iff_of_false hpos fun hall => hall _ hfound,
      fun _ => ⟨hfound, k, hk, rfl, hpassed⟩⟩
  · simp only [hsearch, bind, Except.bind, pure, Except.pure]
    refine ⟨_, _, rfl, rfl, Bpb.turn_has hcursor _, iff_of_true rfl ?_,
      fun hne => absurd rfl hne⟩
    intro x hx
    obtain ⟨j, hj, rfl⟩ := Bpb.exists_turn hcursor hx.1
    exact hnone j hj hx

end

def halfFull : Volume where
  bpb := ofWords [(12, 0x00010102), (16, 1), (32, 4), (36, 1), (44, 2)]
  disk := ofWords [(520, 0x0FFFFFFF)]
  lastFreeCluster := 2
  garbage _ := 0

/-- The search on that volume. -/
theorem findFreeCluster_first_halfFull :
    ∃ cluster next, findFreeCluster halfFull = .ok (cluster, next) ∧
      next = { halfFull with lastFreeCluster := next.lastFreeCluster } ∧
      halfFull.bpb.Has next.lastFreeCluster ∧
      (cluster = 0 ↔ ∀ x, ¬halfFull.Free x) ∧
      (cluster ≠ 0 → halfFull.Free cluster ∧ ∃ k < halfFull.bpb.clusters,
        cluster = halfFull.bpb.turn halfFull.lastFreeCluster k ∧
          ∀ j < k,
            ¬halfFull.Free (halfFull.bpb.turn halfFull.lastFreeCluster j)) :=
  findFreeCluster_first
    ⟨by decide +kernel, by decide +kernel, by decide +kernel⟩
    (by decide +kernel)

/-- A volume whose cluster numbers take more than 30 bits: every cluster is taken,
and the entry in front of the first one is 0. -/
def wideTable : Volume where
  bpb := ofWords [(12, 0x00010102), (16, 1), (32, 0x40800002), (36, 0x00800001),
    (44, 2)]
  disk k := if 512 ≤ k ∧ k < 516 then 0 else 0xFF
  lastFreeCluster := 0x40000000
  garbage _ := 0

/-- The search returns cluster `0x40000000` there: four times its number does not
fit into a word, so that the first entry of the table is read for it. -/
theorem findFreeCluster_wideTable :
    wideTable.bpb.bytesPerSector = 512 ∧
      wideTable.bpb.dataStart ≤ wideTable.bpb.sectors ∧
      1 ≤ wideTable.bpb.clusters ∧
      wideTable.bpb.clusters + 2 ≤ 128 * wideTable.bpb.sectorsPerFat ∧
      wideTable.bpb.Has wideTable.lastFreeCluster ∧
      (∀ x, ¬wideTable.Free x) ∧
      ∃ next, findFreeCluster wideTable = .ok (0x40000000, next) := by
  have hfull : ∀ x, ¬wideTable.Free x := by
    rintro x ⟨hx, hlink⟩
    have hbase : 520 ≤ wideTable.bpb.fatAddress 0 x := by
      have hreserved : wideTable.bpb.reservedSectorCount = 1 := by
        decide +kernel
      unfold Bpb.fatAddress
      rw [hreserved]
      have := hx.1
      omega
    have hbyte : ∀ k, 520 ≤ k → wideTable.disk k = 0xFF :=
      fun k hk => if_neg (by omega)
    unfold Volume.link Volume.fatEntry le32 at hlink
    rw [hbyte _ (by omega), hbyte _ (by omega), hbyte _ (by omega),
      hbyte _ (by omega)] at hlink
    exact absurd hlink (by decide)
  have hfound : (findFreeCluster wideTable).satisfies
      (fun found => decide (found.1 = 0x40000000)) = true := by
    decide +kernel
  obtain ⟨⟨cluster, next⟩, hfind, hsame⟩ := Outcome.exists_of_satisfies hfound
  obtain rfl : cluster = 0x40000000 := of_decide_eq_true hsame
  exact ⟨by decide +kernel, by decide +kernel, by decide +kernel,
    by decide +kernel, by decide +kernel, hfull, next, hfind⟩

section

variable {v w found next : Volume} {start cluster first prev last x : ℕ}
  {front cs : List ℕ}

/-! ## The loop of `fat32_write_file` -/

/-- The way of free clusters that the loop has built: those in `front` are
linked, and `prev` is still free. -/
structure Building (v w : Volume) (first : ℕ) (front : List ℕ) (prev : ℕ) :
    Prop where
  frame : v.Frame w {x | x ∈ front} ∅
  free : ∀ x ∈ front ++ [prev], v.Free x
  nodup : (front ++ [prev]).Nodup
  linked : LinkedTo w.link first front prev
  cursor : w.lastFreeCluster = v.bpb.turn prev 1

theorem Building.prev_notMem
    (h : Building v w first front prev) : prev ∉ front :=
  fun hmem => (List.nodup_append.1 h.nodup).2.2 prev hmem prev
    (List.mem_singleton_self _) rfl

theorem Building.prev_free
    (h : Building v w first front prev) : v.Free prev :=
  h.free prev (List.mem_append_right _ (List.mem_singleton_self _))

/-- The clusters that are left: all but those in `front`. -/
theorem Building.free_iff
    (h : Building v w first front prev) (hgeometry : v.bpb.Geometry) :
    w.Free x ↔ v.Free x ∧ x ∉ front := by
  have hkeep : v.bpb.Has x → x ∉ front → w.link x = v.link x :=
    fun hx hne => h.frame.link hgeometry.tables (hgeometry.hasEntry hx) hne
  unfold Volume.Free
  rw [h.frame.bpb]
  constructor
  · rintro ⟨hx, hzero⟩
    have hne : x ∉ front := by
      intro hmem
      have hnext := h.free _ (h.linked.link_mem hmem)
      rw [hzero] at hnext
      exact absurd hnext.1.1 (by norm_num)
    exact ⟨⟨hx, (hkeep hx hne).symm.trans hzero⟩, hne⟩
  · rintro ⟨⟨hx, hzero⟩, hne⟩
    exact ⟨hx, (hkeep hx hne).trans hzero⟩

/-- Another cluster is hung on. -/
theorem Building.extend
    (h : Building v w first front prev) (hgeometry : v.bpb.Geometry)
    (hx : w.Free x) (hne : x ≠ prev)
    (hlinks : Links { w with lastFreeCluster := w.bpb.turn x 1 } next prev x) :
    Building v next first (front ++ [prev]) x := by
  obtain ⟨hfree, hnew⟩ := (h.free_iff hgeometry).1 hx
  have hwgeometry := h.frame.geometry hgeometry
  have hprev : w.bpb.Has prev := h.frame.bpb ▸ h.prev_free.1
  have hentry := hwgeometry.hasEntry hprev
  have hmoved : w.Frame { w with lastFreeCluster := w.bpb.turn x 1 } ∅ ∅ :=
    w.frame_cursor (Bpb.turn_has hx.1 1)
  have hframe : w.Frame next {prev} ∅ :=
    (hmoved.trans (Volume.frame_links hlinks hwgeometry.tables hentry)).mono
      (by simp) (by simp)
  have hlink : next.link prev = x := by
    rw [hlinks.link_same hwgeometry.tables]
    have hbound := (hgeometry.isCluster hfree.1).2
    exact Nat.mod_eq_of_lt (by omega)
  have hall : ∀ y ∈ front ++ [prev] ++ [x], v.Free y := by
    intro y hy
    rcases List.mem_append.1 hy with hy | hy
    · exact h.free y hy
    · rw [List.mem_singleton.1 hy]
      exact hfree
  refine ⟨(h.frame.trans hframe).mono ?_ (by simp), hall, ?_, ?_, ?_⟩
  · rintro y (hy | rfl)
    · exact List.mem_append_left _ hy
    · exact List.mem_append_right _ (List.mem_singleton_self _)
  · rw [List.nodup_append]
    refine ⟨h.nodup, List.nodup_singleton x, ?_⟩
    intro y hy z hz
    rw [List.mem_singleton.1 hz]
    rintro rfl
    rcases List.mem_append.1 hy with hy | hy
    · exact hnew hy
    · exact hne (List.mem_singleton.1 hy)
  · refine (h.linked.congr fun y hy => ?_).concat hlink
    have hyhas : v.bpb.Has y := (h.free y (List.mem_append_left _ hy)).1
    refine hframe.link hwgeometry.tables
      (hwgeometry.hasEntry (h.frame.bpb ▸ hyhas)) ?_
    rintro rfl
    exact h.prev_notMem hy
  · rw [hlinks.lastFreeCluster, h.frame.bpb]

theorem Building.card_of_only
    (h : Building v w first front prev) (hgeometry : v.bpb.Geometry)
    (honly : ∀ y, w.Free y → y = prev) :
    v.freeClusters.card = (front ++ [prev]).length := by
  rw [← List.toFinset_card_of_nodup h.nodup]
  congr 1
  ext y
  rw [Volume.mem_freeClusters, List.mem_toFinset]
  refine ⟨fun hy => ?_, h.free y⟩
  by_cases hmem : y ∈ front
  · exact List.mem_append_left _ hmem
  · rw [honly y ((h.free_iff hgeometry).2 ⟨hy, hmem⟩)]
    exact List.mem_append_right _ (List.mem_singleton_self _)

/-- What the loop has built when it ends with a chain: `count` clusters, or one
less if there are no more and the last one is linked to itself. -/
structure Built (v next : Volume) (count first last : ℕ) (front : List ℕ) :
    Prop where
  frame : v.Frame next {x | x ∈ front ++ [last]} ∅
  free : ∀ x ∈ front ++ [last], v.Free x
  nodup : (front ++ [last]).Nodup
  linked : LinkedTo next.link first front last
  length : (front ++ [last]).length = count ∨
    (front ++ [last]).length + 1 = count ∧ v.freeClusters.card + 1 = count

theorem findFreeCluster_linked
    (h : Building v w first front prev) (hgeometry : v.bpb.Geometry) :
    ∃ x linked, w.Free x ∧ findFreeCluster w =
        .ok (x, { w with lastFreeCluster := w.bpb.turn x 1 }) ∧
      linkCluster { w with lastFreeCluster := w.bpb.turn x 1 } prev x =
        .ok linked ∧
      Links { w with lastFreeCluster := w.bpb.turn x 1 } linked prev x ∧
      (x = prev → ∀ y, w.Free y → y = prev) := by
  have hwgeometry := h.frame.geometry hgeometry
  have hprev := h.prev_free
  have hleft : w.Free prev :=
    (h.free_iff hgeometry).2 ⟨hprev, h.prev_notMem⟩
  have hcursor : w.bpb.Has w.lastFreeCluster := by
    rw [h.cursor, h.frame.bpb]
    exact Bpb.turn_has hprev.1 1
  obtain ⟨x, hx, hfind, honly⟩ :=
    findFreeCluster_some hwgeometry.numbered hcursor ⟨prev, hleft⟩
  obtain ⟨linked, hlinked, hlinks⟩ :=
    @setNextCluster_ok { w with lastFreeCluster := w.bpb.turn x 1 } prev
      hwgeometry.tables (hwgeometry.hasEntry hleft.1) x
  refine ⟨x, linked, hx, hfind, ?_, hlinks, ?_⟩
  · unfold linkCluster
    rw [if_neg (by have := hprev.1.1; omega), hlinked]
  · rintro rfl
    refine honly ?_
    rw [h.cursor, h.frame.bpb]

theorem takeClusters_building
    (h : Building v w first front prev) (hgeometry : v.bpb.Geometry)
    (count : ℕ) :
    (∃ next last front', takeClusters count first prev w =
        .ok (some (first, last), next) ∧
      Built v next ((front ++ [prev]).length + count) first last front') ∨
    (∃ next, takeClusters count first prev w = .ok (none, next) ∧
      v.Frame next {x | v.Free x} ∅ ∧
      v.freeClusters.card + 1 < (front ++ [prev]).length + count) := by
  induction count generalizing w front prev with
  | zero =>
      refine .inl ⟨w, prev, front, rfl, ?_, h.free, h.nodup, h.linked, .inl rfl⟩
      exact h.frame.mono (fun x hx => List.mem_append_left _ hx) le_rfl
  | succ count ih =>
      obtain ⟨x, linked, hx, hfind, hlinked, hlinks, honly⟩ :=
        findFreeCluster_linked h hgeometry
      have hwgeometry := h.frame.geometry hgeometry
      have hprev := h.prev_free
      have hzero : prev ≠ 0 := by
        have := hprev.1.1
        omega
      have hpos : x ≠ 0 := by
        have := hx.1.1
        omega
      have hstep : takeClusters (count + 1) first prev w =
          takeClusters count first x linked := by
        rw [takeClusters]
        simp only [hfind, hlinked, bind, Except.bind, if_neg hpos, if_neg hzero]
      rw [hstep]
      by_cases hsame : x = prev
      · subst hsame
        have hcard := h.card_of_only hgeometry (honly rfl)
        have hentry := hwgeometry.hasEntry hx.1
        have hframe : w.Frame linked {x} ∅ :=
          ((w.frame_cursor (Bpb.turn_has hx.1 1)).trans
            (Volume.frame_links hlinks hwgeometry.tables hentry)).mono
              (by simp) (by simp)
        have hwhole : v.Frame linked {y | y ∈ front ++ [x]} ∅ := by
          refine (h.frame.trans hframe).mono ?_ (by simp)
          rintro y (hy | rfl)
          · exact List.mem_append_left _ hy
          · exact List.mem_append_right _ (List.mem_singleton_self _)
        cases count with
        | zero =>
            refine .inl ⟨linked, x, front, rfl, hwhole, h.free, h.nodup, ?_, ?_⟩
            · refine h.linked.congr fun y hy => ?_
              have hyhas : v.bpb.Has y :=
                (h.free y (List.mem_append_left _ hy)).1
              refine hframe.link hwgeometry.tables
                (hwgeometry.hasEntry (h.frame.bpb ▸ hyhas)) ?_
              rintro rfl
              exact h.prev_notMem hy
            · exact .inr ⟨rfl, by rw [hcard]⟩
        | succ count =>
            have hfull : ∀ y, ¬linked.Free y := by
              rintro y ⟨hy, hlink⟩
              by_cases hlast : y = x
              · subst hlast
                rw [hlinks.link_same hwgeometry.tables,
                  Nat.mod_eq_of_lt (by
                    have := (hwgeometry.isCluster hx.1).2; omega)] at hlink
                exact hpos hlink
              · rw [hframe.bpb] at hy
                refine hlast (honly rfl y ⟨hy, ?_⟩)
                rw [← hframe.link hwgeometry.tables
                  (hwgeometry.hasEntry hy) hlast]
                exact hlink
            have hcursor : linked.bpb.Has linked.lastFreeCluster := by
              rw [hlinks.lastFreeCluster, hlinks.bpb]
              exact Bpb.turn_has hx.1 1
            have hnone := findFreeCluster_none
              (hframe.geometry hwgeometry).numbered hcursor hfull
            refine .inr ⟨linked, ?_, hwhole.mono h.free le_rfl, by omega⟩
            rw [takeClusters]
            simp only [hnone, bind, Except.bind, if_true, pure, Except.pure]
      · have hnext := h.extend hgeometry hx hsame hlinks
        have hlength : (front ++ [prev] ++ [x]).length + count =
            (front ++ [prev]).length + (count + 1) := by
          simp only [List.length_append, List.length_singleton]
          omega
        rcases ih hnext with hbuilt | hfailed
        · rw [hlength] at hbuilt
          exact .inl hbuilt
        · rw [hlength] at hfailed
          exact .inr hfailed

/-- The loop builds a chain, or takes none for want of free clusters. -/
theorem takeClusters_ok
    (hgeometry : v.bpb.Geometry) (hcursor : v.bpb.Has v.lastFreeCluster)
    {count : ℕ} (hcount : 0 < count) :
    (∃ next first last front, takeClusters count 0 0 v =
        .ok (some (first, last), next) ∧
      Built v next count first last front) ∨
    (∃ next, takeClusters count 0 0 v = .ok (none, next) ∧
      v.Frame next {x | v.Free x} ∅ ∧
      (v.freeClusters.card = 0 ∧ next = v ∨
        0 < v.freeClusters.card ∧ v.freeClusters.card + 1 < count)) := by
  obtain ⟨count, rfl⟩ := Nat.exists_eq_succ_of_ne_zero hcount.ne'
  by_cases hfree : ∃ x, v.Free x
  · obtain ⟨x, hx, hfind, -⟩ := findFreeCluster_some hgeometry.numbered hcursor hfree
    have hpos : x ≠ 0 := by
      have := hx.1.1
      omega
    have hcard : 0 < v.freeClusters.card :=
      Finset.card_pos.2 ⟨x, Volume.mem_freeClusters.2 hx⟩
    have hstep : takeClusters (count + 1) 0 0 v =
        takeClusters count x x { v with lastFreeCluster := v.bpb.turn x 1 } := by
      rw [takeClusters]
      simp only [hfind, linkCluster, bind, Except.bind, if_neg hpos, if_true,
        pure, Except.pure]
    have hstart : Building v { v with lastFreeCluster := v.bpb.turn x 1 }
        x [] x := by
      refine ⟨?_, ?_, List.nodup_singleton x, rfl, rfl⟩
      · exact (v.frame_cursor (Bpb.turn_has hx.1 1)).mono
          (Set.empty_subset _) le_rfl
      · intro y hy
        rw [List.nil_append, List.mem_singleton] at hy
        exact hy ▸ hx
    rw [hstep]
    rcases takeClusters_building hstart hgeometry count with
      ⟨next, last, front, htake, hbuilt⟩ | ⟨next, htake, hframe, hshort⟩
    · refine .inl ⟨next, x, last, front, htake, ?_⟩
      rw [List.nil_append, List.length_singleton, Nat.add_comm] at hbuilt
      exact hbuilt
    · rw [List.nil_append, List.length_singleton] at hshort
      exact .inr ⟨next, htake, hframe, .inr ⟨hcard, by omega⟩⟩
  · rw [not_exists] at hfree
    refine .inr ⟨v, ?_, (Volume.Frame.refl v).mono (Set.empty_subset _) le_rfl,
      .inl ⟨Volume.card_freeClusters_eq_zero.2 hfree, rfl⟩⟩
    rw [takeClusters]
    simp only [findFreeCluster_none hgeometry.numbered hcursor hfree, bind, Except.bind,
      if_true, pure, Except.pure]

theorem Built.close
    (h : Built v w cluster first last front) (hgeometry : v.bpb.Geometry) :
    ∃ next, linkCluster w last 0x0FFFFFF8 = .ok next ∧
      v.Frame next {x | x ∈ front ++ [last]} ∅ ∧
      ChainFrom next.link Continues first (front ++ [last]) := by
  have hwgeometry := h.frame.geometry hgeometry
  have hlast : v.bpb.Has last :=
    (h.free last (List.mem_append_right _ (List.mem_singleton_self _))).1
  have hentry : w.bpb.HasEntry last :=
    hwgeometry.hasEntry (h.frame.bpb ▸ hlast)
  obtain ⟨next, hnext, hlinks⟩ :=
    setNextCluster_ok hwgeometry.tables hentry 0x0FFFFFF8
  have hframe := Volume.frame_links hlinks hwgeometry.tables hentry
  refine ⟨next, ?_, (h.frame.trans hframe).mono ?_ (by simp), ?_⟩
  · unfold linkCluster
    rw [if_neg (by have := hlast.1; omega), hnext]
  · rintro y (hy | rfl)
    · exact hy
    · exact List.mem_append_right _ (List.mem_singleton_self _)
  · have hlinked : LinkedTo next.link first front last := by
      refine h.linked.congr fun y hy => ?_
      have hyhas : v.bpb.Has y := (h.free y (List.mem_append_left _ hy)).1
      refine hframe.link hwgeometry.tables
        (hwgeometry.hasEntry (h.frame.bpb ▸ hyhas)) ?_
      rintro rfl
      exact (List.nodup_append.1 h.nodup).2.2 y hy y
        (List.mem_singleton_self _) rfl
    refine hlinked.chainFrom
      (fun y hy => (h.free y hy).1.continues hgeometry) ?_
    rw [hlinks.link_same hwgeometry.tables]
    unfold Continues
    norm_num

end

end ClOs.Fat32
