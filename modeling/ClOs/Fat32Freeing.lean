import ClOs.Fat32Chains

/-!
# The freeing loop

`fat32_delete` clears the table entry of a cluster after it has read the link in
it.  A loop that comes back to a cluster finds the entry cleared and stops, so it
ends on every table whose links stay within it.
-/

namespace ClOs.Fat32

open ByteStore

/-- A run of the loop that frees a chain, with the clusters it visits. -/
inductive FreeRun : Volume → ℕ → List ℕ → Volume → Prop
  | stop {v : Volume} {cluster : ℕ} : ¬IsCluster cluster →
      FreeRun v cluster [] v
  | step {v freed last : Volume} {cluster next : ℕ} {visited : List ℕ} :
      IsCluster cluster → getNextCluster v cluster = .ok next →
      setNextCluster v cluster 0 = .ok freed →
      FreeRun freed next visited last →
      FreeRun v cluster (cluster :: visited) last

/-- The links of a table lead to its entries or mark an end. -/
def Volume.LinksWithin (v : Volume) : Prop :=
  ∀ x, IsCluster x → x < 128 * v.bpb.sectorsPerFat →
    v.link x < 128 * v.bpb.sectorsPerFat ∨ 0x0FFFFFF8 ≤ v.link x

/-- The clusters with a link, among those that a loop can visit. -/
def Volume.linked (v : Volume) : Finset ℕ :=
  (Finset.Ico 2 0x0FFFFFF8).filter
    (fun x => x < 128 * v.bpb.sectorsPerFat ∧ v.link x ≠ 0)

section

variable {v last freed : Volume} {cluster next x : ℕ} {visited : List ℕ}

/-- A run within the fuel is what the loop computes. -/
theorem FreeRun.freeChain
    (h : FreeRun v cluster visited last) {fuel : ℕ}
    (hfuel : visited.length < fuel) :
    freeChain fuel cluster v = .ok last := by
  induction h generalizing fuel with
  | stop hend =>
      obtain ⟨fuel, rfl⟩ := Nat.exists_eq_succ_of_ne_zero hfuel.ne'
      rw [Fat32.freeChain, if_neg hend]
      rfl
  | step hcluster hnext hfreed _ ih =>
      obtain ⟨fuel, rfl⟩ := Nat.exists_eq_succ_of_ne_zero
        (Nat.zero_lt_of_lt hfuel).ne'
      rw [Fat32.freeChain, if_pos hcluster]
      simp only [hnext, hfreed, bind, Except.bind]
      exact ih (Nat.lt_of_succ_lt_succ hfuel)

theorem hasEntry_of_isCluster
    (hcluster : IsCluster cluster)
    (hwithin : cluster < 128 * v.bpb.sectorsPerFat) :
    v.bpb.HasEntry cluster :=
  ⟨hwithin, by have := hcluster.2; omega⟩

theorem FreeRun.frame
    (h : FreeRun v cluster visited last) (htables : v.bpb.Tables)
    (hvisited : ∀ x ∈ visited, v.bpb.HasEntry x) :
    v.Frame last {x | x ∈ visited} ∅ ∧
      ∀ copy < v.bpb.fatCount, ∀ x ∈ visited,
        last.fatEntry copy x % 0x10000000 = 0 := by
  induction h with
  | @stop v cluster _ =>
      exact ⟨(Volume.Frame.refl v).mono (Set.empty_subset _) le_rfl,
        fun _ _ x hx => absurd hx List.not_mem_nil⟩
  | @step v freed last cluster next visited hcluster _ hfreed _ ih =>
      have hentry := hvisited cluster List.mem_cons_self
      obtain ⟨stored, hstored, hlinks⟩ := setNextCluster_ok htables hentry 0
      rw [hfreed, Except.ok.injEq] at hstored
      subst hstored
      have hfirst := Volume.frame_links hlinks htables hentry
      obtain ⟨hrest, hclear⟩ := ih (hfirst.bpb ▸ htables) fun x hx => by
        rw [hfirst.bpb]
        exact hvisited x (List.mem_cons_of_mem _ hx)
      refine ⟨(hfirst.trans hrest).mono ?_ (by simp), ?_⟩
      · rintro x (rfl | hx)
        · exact List.mem_cons_self
        · exact List.mem_cons_of_mem _ hx
      · intro copy hcopy x hx
        by_cases hagain : x ∈ visited
        · exact hclear copy (hfirst.bpb ▸ hcopy) x hagain
        · obtain rfl : x = cluster := by simpa [hagain] using hx
          rw [hrest.fatEntry copy (hfirst.bpb ▸ hcopy) x
              (hfirst.bpb ▸ hentry.1) hagain, hlinks.entry copy hcopy,
            tableValue_link]

/-- Nothing else on the disk changes. -/
theorem FreeRun.others
    (h : FreeRun v cluster visited last) (htables : v.bpb.Tables)
    (hvisited : ∀ x ∈ visited, v.bpb.HasEntry x) {k : ℕ}
    (hk : ∀ copy < v.bpb.fatCount, ∀ x ∈ visited,
      k < v.bpb.fatAddress copy x ∨ v.bpb.fatAddress copy x + 4 ≤ k) :
    last.disk k = v.disk k := by
  induction h with
  | stop _ => rfl
  | @step v freed last cluster next visited hcluster _ hfreed _ ih =>
      have hentry := hvisited cluster List.mem_cons_self
      obtain ⟨stored, hstored, hlinks⟩ := setNextCluster_ok htables hentry 0
      rw [hfreed, Except.ok.injEq] at hstored
      subst hstored
      rw [ih (hlinks.bpb ▸ htables) ?_ ?_]
      · exact hlinks.others k fun copy hcopy =>
          hk copy hcopy cluster List.mem_cons_self
      · intro x hx
        rw [hlinks.bpb]
        exact hvisited x (List.mem_cons_of_mem _ hx)
      · intro copy hcopy x hx
        rw [hlinks.bpb] at hcopy ⊢
        exact hk copy hcopy x (List.mem_cons_of_mem _ hx)

/-- Clearing an entry leaves the links within the table and takes the cluster
from those that have one. -/
theorem Links.within
    (h : Links v freed cluster 0) (htables : v.bpb.Tables)
    (hentry : v.bpb.HasEntry cluster) (hlinks : v.LinksWithin) :
    freed.LinksWithin ∧ freed.linked = v.linked.erase cluster := by
  have hsame : freed.link cluster = 0 := by
    rw [h.link_same htables]
  have hother : ∀ x, IsCluster x → x < 128 * v.bpb.sectorsPerFat →
      x ≠ cluster → freed.link x = v.link x :=
    fun _ _ hwithin hne => h.link_of_ne hentry hwithin hne
  constructor
  · intro x hx hwithin
    rw [h.bpb] at hwithin ⊢
    by_cases hfreed : x = cluster
    · subst hfreed
      rw [hsame]
      exact .inl (Nat.zero_lt_of_lt hwithin)
    · rw [hother x hx hwithin hfreed]
      exact hlinks x hx hwithin
  · ext x
    unfold Volume.linked
    rw [Finset.mem_erase, Finset.mem_filter, Finset.mem_filter, h.bpb,
      Finset.mem_Ico]
    constructor
    · rintro ⟨hx, hwithin, hlinked⟩
      have hne : x ≠ cluster := by
        rintro rfl
        exact hlinked hsame
      rw [hother x hx hwithin hne] at hlinked
      exact ⟨hne, hx, hwithin, hlinked⟩
    · rintro ⟨hne, hx, hwithin, hlinked⟩
      rw [← hother x hx hwithin hne] at hlinked
      exact ⟨hx, hwithin, hlinked⟩

/-- The clusters that a run visits: distinct ones with a link, and at most one
more whose entry was clear when the run came to it. -/
structure Visits (v : Volume) (visited : List ℕ) : Prop where
  within : ∀ x ∈ visited, IsCluster x ∧ x < 128 * v.bpb.sectorsPerFat
  split : ∃ front back, visited = front ++ back ∧ front.Nodup ∧
    (∀ x ∈ front, v.link x ≠ 0) ∧ back.length ≤ 1

theorem Visits.count_le
    (h : Visits v visited) (x : ℕ) : visited.count x ≤ 2 := by
  obtain ⟨front, back, rfl, hnodup, -, hback⟩ := h.split
  have hfront := List.nodup_iff_count_le_one.1 hnodup x
  have hlast := (List.count_le_length (a := x) (l := back)).trans hback
  rw [List.count_append]
  omega

theorem within_of_isCluster
    (hcluster : cluster < 128 * v.bpb.sectorsPerFat ∨ 0x0FFFFFF8 ≤ cluster)
    (hvisit : IsCluster cluster) : cluster < 128 * v.bpb.sectorsPerFat :=
  hcluster.resolve_right (not_le.2 hvisit.2)

/-- A cluster without a link leads to 0, where the loop stops. -/
theorem exists_freeRun_short
    (htables : v.bpb.Tables)
    (hcluster : cluster < 128 * v.bpb.sectorsPerFat ∨ 0x0FFFFFF8 ≤ cluster)
    (hshort : IsCluster cluster → v.link cluster = 0) :
    ∃ visited last, FreeRun v cluster visited last ∧ Visits v visited ∧
      visited.length ≤ 1 := by
  by_cases hvisit : IsCluster cluster
  · have hwithin := within_of_isCluster hcluster hvisit
    have hentry := hasEntry_of_isCluster hvisit hwithin
    obtain ⟨freed, hfreed, -⟩ := setNextCluster_ok htables hentry 0
    have hnext := getNextCluster_eq htables hentry
    rw [hshort hvisit] at hnext
    have hzero : ¬IsCluster 0 := fun h => absurd h.1 (by norm_num)
    refine ⟨[cluster], freed, .step hvisit hnext hfreed (.stop hzero), ?_,
      le_rfl⟩
    refine ⟨fun x hx => ?_, [], [cluster], rfl, List.nodup_nil,
      fun x hx => absurd hx List.not_mem_nil, le_rfl⟩
    obtain rfl := List.mem_singleton.1 hx
    exact ⟨hvisit, hwithin⟩
  · exact ⟨[], v, .stop hvisit, ⟨fun x hx => absurd hx List.not_mem_nil, [], [],
      rfl, List.nodup_nil, fun x hx => absurd hx List.not_mem_nil,
      Nat.zero_le _⟩, Nat.zero_le _⟩

/-- The measure is the number of clusters with a link. -/
theorem exists_freeRun
    (htables : v.bpb.Tables) (hlinks : v.LinksWithin)
    (hcluster : cluster < 128 * v.bpb.sectorsPerFat ∨ 0x0FFFFFF8 ≤ cluster) :
    ∃ visited last, FreeRun v cluster visited last ∧ Visits v visited ∧
      visited.length ≤ v.linked.card + 1 := by
  induction hcount : v.linked.card using Nat.strong_induction_on
    generalizing v cluster with
  | _ count ih =>
      by_cases hshort : IsCluster cluster → v.link cluster = 0
      · obtain ⟨visited, last, hrun, hvisits, hlength⟩ :=
          exists_freeRun_short htables hcluster hshort
        exact ⟨visited, last, hrun, hvisits, by omega⟩
      · push Not at hshort
        obtain ⟨hvisit, hlinked⟩ := hshort
        have hwithin := within_of_isCluster hcluster hvisit
        have hentry := hasEntry_of_isCluster hvisit hwithin
        have hmem : cluster ∈ v.linked := by
          unfold Volume.linked
          rw [Finset.mem_filter, Finset.mem_Ico]
          exact ⟨hvisit, hwithin, hlinked⟩
        obtain ⟨freed, hfreed, hset⟩ := setNextCluster_ok htables hentry 0
        obtain ⟨hfreedLinks, herase⟩ := hset.within htables hentry hlinks
        have hcard := Finset.card_erase_of_mem hmem
        have hpos := Finset.card_pos.2 ⟨cluster, hmem⟩
        rw [← herase] at hcard
        have hnext : v.link cluster < 128 * freed.bpb.sectorsPerFat ∨
            0x0FFFFFF8 ≤ v.link cluster := by
          rw [hset.bpb]
          exact hlinks cluster hvisit hwithin
        obtain ⟨visited, last, hrun, ⟨hall, front, back, rfl, hnodup, hfront,
            hback⟩, hlength⟩ :=
          ih _ (by omega) (hset.bpb ▸ htables) hfreedLinks hnext rfl
        have hlinkedBefore : ∀ x ∈ front, x ≠ cluster ∧ v.link x ≠ 0 := by
          intro x hx
          have hother := hfront x hx
          have hne : x ≠ cluster := by
            rintro rfl
            exact hother (hset.link_same htables)
          obtain ⟨hxvisit, hxwithin⟩ := hall x (List.mem_append_left _ hx)
          rw [hset.bpb] at hxwithin
          rw [hset.link_of_ne hentry hxwithin hne] at hother
          exact ⟨hne, hother⟩
        refine ⟨cluster :: (front ++ back), last,
          .step hvisit (getNextCluster_eq htables hentry) hfreed hrun,
          ⟨fun x hx => ?_, cluster :: front, back, rfl, ?_, fun x hx => ?_,
            hback⟩, ?_⟩
        · rcases List.mem_cons.1 hx with rfl | hx
          · exact ⟨hvisit, hwithin⟩
          · rw [← hset.bpb]
            exact hall x hx
        · exact List.nodup_cons.2 ⟨fun hx => (hlinkedBefore _ hx).1 rfl, hnodup⟩
        · rcases List.mem_cons.1 hx with rfl | hx
          · exact hlinked
          · exact (hlinkedBefore x hx).2
        · rw [List.length_cons]
          omega

/-- The loop of `fat32_delete` has steps enough. -/
theorem Visits.length_lt
    (hlength : visited.length ≤ v.linked.card + 1) :
    visited.length < 2 * chainFuel := by
  have hcard : v.linked.card ≤ (Finset.Ico 2 0x0FFFFFF8).card :=
    Finset.card_filter_le _ _
  rw [Nat.card_Ico] at hcard
  unfold chainFuel
  omega

end

/-! ## The read loop -/

section

variable {v : Volume}

theorem loadSectors_total
    (v : Volume) {size count : ℕ} (lba : ℕ)
    (hsize : 512 * sectorsMoved count ≤ size) :
    loadSectors v size lba count = .ok ⟨size,
      v.garbage.blit 0 (readSectors v.disk lba) (512 * sectorsMoved count)⟩ :=
  Buffer.load_eq_ok.2 ⟨by rwa [Nat.zero_add], rfl⟩

/-- Reading a link fails for no number at all. -/
theorem getNextCluster_total
    (hsector : v.bpb.bytesPerSector = 512) (cluster : ℕ) :
    ∃ next, getNextCluster v cluster = .ok next := by
  have hoffset : u32 (cluster * 4) % 512 + 4 ≤ 512 := by
    unfold u32
    omega
  unfold getNextCluster fatPlace
  rw [hsector, if_neg (by norm_num)]
  simp only [bind, Except.bind, loadSectors_sector, get32_sector _ _ hoffset]
  exact ⟨_, rfl⟩

theorem readCluster_total
    (hsector : v.bpb.bytesPerSector = 512) (cluster : ℕ) :
    ∃ bytes, readCluster v cluster = .ok ⟨v.bytesPerCluster, bytes⟩ := by
  refine ⟨_, loadSectors_total v _ ?_⟩
  rw [sectorsMoved_cluster]
  unfold Volume.bytesPerCluster
  rw [hsector, Nat.mul_comm]

/-- Every round of the read loop reads a byte at least. -/
theorem readClusters_ends
    (hsector : v.bpb.bytesPerSector = 512) (hpos : 0 < v.bytesPerCluster)
    {size fuel totalRead : ℕ} (cluster : ℕ) (buffer : ByteStore)
    (htotal : totalRead ≤ size) (hfuel : size - totalRead < fuel) :
    ∃ total filled, readClusters v size fuel cluster totalRead buffer =
      .ok (total, filled) ∧ total ≤ size := by
  induction fuel generalizing cluster totalRead buffer with
  | zero => exact absurd hfuel (Nat.not_lt_zero _)
  | succ fuel ih =>
      rw [readClusters]
      by_cases hmore : IsCluster cluster ∧ totalRead < size
      · rw [if_pos hmore]
        obtain ⟨bytes, hread⟩ := readCluster_total hsector cluster
        obtain ⟨next, hnext⟩ := getNextCluster_total hsector cluster
        have hslice : (Buffer.mk v.bytesPerCluster bytes).slice 0
            (min (size - totalRead) v.bytesPerCluster) = .ok (bytes.drop 0) :=
          Buffer.slice_eq_ok.2
            ⟨by rw [Nat.zero_add]; exact Nat.min_le_right _ _, rfl⟩
        simp only [hread, hnext, hslice, bind, Except.bind]
        have hchunk : 0 < min (size - totalRead) v.bytesPerCluster := by
          omega
        exact ih next _ (by omega) (by omega)
      · rw [if_neg hmore]
        exact ⟨totalRead, buffer, rfl, htotal⟩

/-! ## Both loops -/

/-- Both loops end on every table whose links stay within it.  The freeing loop
visits no cluster three times and clears the entries it visits; it keeps the
other entries, and the rest of the disk. -/
theorem loops_end
    (htables : v.bpb.Tables) (hlinks : v.LinksWithin) {first : ℕ}
    (hfirst : first < 128 * v.bpb.sectorsPerFat ∨ 0x0FFFFFF8 ≤ first) :
    (∃ visited last, freeChain (2 * chainFuel) first v = .ok last ∧
      FreeRun v first visited last ∧ (∀ x, visited.count x ≤ 2) ∧
      (∀ copy < v.bpb.fatCount, ∀ x ∈ visited,
        last.fatEntry copy x &&& 0x0FFFFFFF = 0) ∧
      (∀ copy < v.bpb.fatCount, ∀ x < 128 * v.bpb.sectorsPerFat,
        x ∉ visited → last.fatEntry copy x = v.fatEntry copy x) ∧
      ∀ k, (∀ copy < v.bpb.fatCount, ∀ x ∈ visited,
        k < v.bpb.fatAddress copy x ∨ v.bpb.fatAddress copy x + 4 ≤ k) →
          last.disk k = v.disk k) ∧
    (0 < v.bytesPerCluster → ∀ size buffer, ∃ total filled,
      readClusters v size (size + chainFuel + 1) first 0 buffer =
        .ok (total, filled)) := by
  constructor
  · obtain ⟨visited, last, hrun, hvisits, hlength⟩ :=
      exists_freeRun htables hlinks hfirst
    have hentries : ∀ x ∈ visited, v.bpb.HasEntry x := fun x hx =>
      hasEntry_of_isCluster (hvisits.within x hx).1 (hvisits.within x hx).2
    obtain ⟨hframe, hclear⟩ := hrun.frame htables hentries
    have hothers : ∀ k, (∀ copy < v.bpb.fatCount, ∀ x ∈ visited,
        k < v.bpb.fatAddress copy x ∨ v.bpb.fatAddress copy x + 4 ≤ k) →
          last.disk k = v.disk k :=
      fun k hk => hrun.others htables hentries hk
    refine ⟨visited, last, hrun.freeChain (Visits.length_lt hlength), hrun,
      hvisits.count_le, fun copy hcopy x hx => ?_, fun copy hcopy x hfit hx => ?_,
      hothers⟩
    · rw [and_0FFFFFFF]
      exact hclear copy hcopy x hx
    · unfold Volume.fatEntry
      rw [hframe.bpb]
      have hagree : last.disk.AgreeOn v.disk (v.bpb.fatAddress copy x)
          (v.bpb.fatAddress copy x + 4) := by
        intro k hlow hhigh
        refine hothers k fun copy' hcopy' y hy => ?_
        have hne : y ≠ x := by
          rintro rfl
          exact hx hy
        have hapart := Bpb.fatAddress_apart (hentries y hy).1 hfit
          (.inr hne : copy' ≠ copy ∨ y ≠ x)
        omega
      exact hagree.le32_eq _ le_rfl le_rfl
  · intro hpos size buffer
    obtain ⟨total, filled, hread, -⟩ := readClusters_ends htables.sector hpos
      first buffer (Nat.zero_le size) (by omega : size - 0 < size + chainFuel + 1)
    exact ⟨total, filled, hread⟩

end

theorem FreeRun.unique
    {v last last' : Volume} {first : ℕ} {visited visited' : List ℕ}
    (h : FreeRun v first visited last) (h' : FreeRun v first visited' last') :
    visited' = visited ∧ last' = last := by
  induction h generalizing visited' last' with
  | stop hstop =>
      cases h' with
      | stop _ => exact ⟨rfl, rfl⟩
      | step hgoes _ _ _ => exact absurd hgoes hstop
  | step hgoes hnext hset _ ih =>
      cases h' with
      | stop hstop => exact absurd hgoes hstop
      | step _ hnext' hset' hrest' =>
          rw [hnext, Except.ok.injEq] at hnext'
          rw [hset, Except.ok.injEq] at hset'
          subst hnext' hset'
          obtain ⟨rfl, rfl⟩ := ih hrest'
          exact ⟨rfl, rfl⟩

/-- A volume of one table sector on which cluster 2 leads into the cycle of the
clusters 3 and 4, which the chain of cluster 5 shares. -/
def cyclic : Volume where
  bpb := ofWords [(12, 0x00010102), (16, 0x10000001), (36, 1), (44, 2)]
  disk := ofWords [(520, 3), (524, 4), (528, 3), (532, 4)]
  lastFreeCluster := 2
  garbage _ := 0

/-- A step of a run that has been evaluated. -/
theorem FreeRun.of_test
    {v : Volume} {cluster next : ℕ} {test : Volume → Bool}
    (hgoes : IsCluster cluster)
    (htest : ((getNextCluster v cluster).satisfies (fun n => decide (n = next)) &&
      (setNextCluster v cluster 0).satisfies test) = true) :
    ∃ freed, test freed = true ∧ ∀ visited last,
      FreeRun freed next visited last →
        FreeRun v cluster (cluster :: visited) last := by
  obtain ⟨hget, hset⟩ := Bool.and_eq_true_iff.1 htest
  obtain ⟨n, hn, hsame⟩ := Outcome.exists_of_satisfies hget
  obtain ⟨freed, hfreed, hmore⟩ := Outcome.exists_of_satisfies hset
  obtain rfl := of_decide_eq_true hsame
  exact ⟨freed, hmore, fun _ _ hrest => .step hgoes hn hfreed hrest⟩

theorem cyclic_freeRun : ∃ last, FreeRun cyclic 2 [2, 3, 4, 3] last := by
  have hrun : ((getNextCluster cyclic 2).satisfies (fun n => decide (n = 3)) &&
      (setNextCluster cyclic 2 0).satisfies fun v =>
        (getNextCluster v 3).satisfies (fun n => decide (n = 4)) &&
        (setNextCluster v 3 0).satisfies fun v =>
          (getNextCluster v 4).satisfies (fun n => decide (n = 3)) &&
          (setNextCluster v 4 0).satisfies fun v =>
            (getNextCluster v 3).satisfies (fun n => decide (n = 0)) &&
            (setNextCluster v 3 0).satisfies fun _ => true) = true := by
    decide +kernel
  obtain ⟨v₁, hrun, h₁⟩ := FreeRun.of_test (by decide) hrun
  obtain ⟨v₂, hrun, h₂⟩ := FreeRun.of_test (by decide) hrun
  obtain ⟨v₃, hrun, h₃⟩ := FreeRun.of_test (by decide) hrun
  obtain ⟨v₄, -, h₄⟩ := FreeRun.of_test (by decide) hrun
  exact ⟨v₄, h₁ _ _ (h₂ _ _ (h₃ _ _ (h₄ _ _ (.stop (by decide)))))⟩

/-- The loops on the clusters of that cycle. -/
theorem loops_end_cyclic :
    (∃ last, freeChain (2 * chainFuel) 2 cyclic = .ok last ∧
      FreeRun cyclic 2 [2, 3, 4, 3] last ∧
      (∀ x ∈ [2, 3, 4], last.fatEntry 0 x &&& 0x0FFFFFFF = 0) ∧
      last.fatEntry 0 5 = cyclic.fatEntry 0 5) ∧
    ∀ size buffer, ∃ total filled,
      readClusters cyclic size (size + chainFuel + 1) 5 0 buffer =
        .ok (total, filled) := by
  have htables : cyclic.bpb.Tables :=
    ⟨by decide +kernel, by decide +kernel, by decide +kernel⟩
  have hlinks : cyclic.LinksWithin := by
    have hall : ∀ x < 128, cyclic.link x < 128 := by decide +kernel
    have hsize : cyclic.bpb.sectorsPerFat = 1 := by decide +kernel
    intro x _ hx
    rw [hsize] at hx ⊢
    exact .inl (hall x hx)
  obtain ⟨⟨visited, last, hfree, hrun, -, hcleared, hkept, -⟩, -⟩ :=
    loops_end htables hlinks (show 2 < 128 * cyclic.bpb.sectorsPerFat ∨ _ from
      .inl (by decide +kernel))
  obtain ⟨last', hrun'⟩ := cyclic_freeRun
  obtain ⟨rfl, rfl⟩ := hrun.unique hrun'
  obtain ⟨-, hread⟩ := loops_end htables hlinks
    (show 5 < 128 * cyclic.bpb.sectorsPerFat ∨ _ from .inl (by decide +kernel))
  exact ⟨⟨last', hfree, hrun', fun x hx => hcleared 0 htables.copies x (by
      simp only [List.mem_cons, List.not_mem_nil, or_false] at hx ⊢
      tauto),
    hkept 0 htables.copies 5 (by decide +kernel) (by decide)⟩,
    hread (by decide +kernel)⟩

theorem link_of_endMarks
    {v : Volume} (hdisk : v.disk = fun _ => 0xFF) (x : ℕ) :
    v.link x = 0x0FFFFFFF := by
  have hbyte : (0xFF : UInt8).toNat = 255 := rfl
  unfold Volume.link Volume.fatEntry le32
  rw [hdisk]
  simp only [hbyte]

/-- Two copies of a table whose sector numbers take more than 28 bits: the
second copy of an entry lies on the first copy of another one. -/
def overlapping : Volume where
  bpb := ofWords [(12, 0x00010102), (16, 0x10000002), (36, 0x0FFFFFFF),
    (44, 2)]
  disk _ := 0xFF
  lastFreeCluster := 2
  garbage _ := 0

/-- Freeing cluster 130 there clears the entry of cluster 2. -/
theorem freeChain_overlapping :
    overlapping.bpb.bytesPerSector = 512 ∧ overlapping.LinksWithin ∧
      130 < 128 * overlapping.bpb.sectorsPerFat ∧
      ∃ last, freeChain (2 * chainFuel) 130 overlapping = .ok last ∧
        FreeRun overlapping 130 [130] last ∧
        last.fatEntry 0 2 ≠ overlapping.fatEntry 0 2 := by
  have hset : (setNextCluster overlapping 130 0).satisfies
      (fun last => decide (last.fatEntry 0 2 = 0xF0000000)) = true := by
    decide +kernel
  have hnext : (getNextCluster overlapping 130).satisfies
      (fun next => decide (next = 0x0FFFFFFF)) = true := by
    decide +kernel
  obtain ⟨last, hlast, hentry⟩ := Outcome.exists_of_satisfies hset
  obtain ⟨next, hlink, hend⟩ := Outcome.exists_of_satisfies hnext
  rw [of_decide_eq_true hend] at hlink
  have hstop : ¬IsCluster 0x0FFFFFFF := fun h => absurd h.2 (by norm_num)
  have hrun : FreeRun overlapping 130 [130] last :=
    .step (by decide) hlink hlast (.stop hstop)
  refine ⟨by decide +kernel, fun x _ _ =>
      .inr (by rw [link_of_endMarks rfl]; norm_num), by decide +kernel, last,
    hrun.freeChain ?_, hrun, ?_⟩
  · rw [List.length_singleton]
    unfold chainFuel
    norm_num
  · have hbyte : (0xFF : UInt8).toNat = 255 := rfl
    rw [of_decide_eq_true hentry]
    unfold Volume.fatEntry overlapping le32
    simp only [hbyte]
    norm_num

end ClOs.Fat32
