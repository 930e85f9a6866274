import ClOs.Fat32Table

/-!
# Cluster chains

A file or a directory owns the clusters that its first cluster leads to, and an
end mark closes the chain.  The walks of the driver visit the clusters of such a
chain in their order, and freeing it clears exactly its table entries.
-/

namespace ClOs.Fat32

open ByteStore

/-- The links below the end marks. -/
def Continues (cluster : ℕ) : Prop := cluster < 0x0FFFFFF8

instance : DecidablePred Continues :=
  fun _ => inferInstanceAs (Decidable (_ < _))

namespace Volume

def chain (v : Volume) (first : ℕ) : List ℕ :=
  chainOf v.link Continues v.bpb.clusters first

/-- A chain of clusters of the volume that an end mark closes. -/
structure Ends (v : Volume) (first : ℕ) : Prop where
  start : v.bpb.Has first
  chain : ChainFrom v.link Continues first (v.chain first)
  cluster : ∀ x ∈ v.chain first, v.bpb.Has x

instance (v : Volume) (first : ℕ) : Decidable (v.Ends first) :=
  decidable_of_iff (v.bpb.Has first ∧
      ChainFrom v.link Continues first (v.chain first) ∧
      ∀ x ∈ v.chain first, v.bpb.Has x)
    ⟨fun ⟨h, h', h''⟩ => ⟨h, h', h''⟩, fun ⟨h, h', h''⟩ => ⟨h, h', h''⟩⟩

/-- A cluster that no entry of the table links. -/
def Free (v : Volume) (cluster : ℕ) : Prop :=
  v.bpb.Has cluster ∧ v.link cluster = 0

instance (v : Volume) : DecidablePred v.Free :=
  fun _ => inferInstanceAs (Decidable (_ ∧ _))

/-- The copies of the table agree on every link. -/
def Mirrored (v : Volume) : Prop :=
  ∀ copy < v.bpb.fatCount, ∀ x < 128 * v.bpb.sectorsPerFat,
    v.fatEntry copy x % 0x10000000 = v.link x

/-- What a call changes: the table entries in `entries`, the bytes of the
clusters in `clusters`, and where the next search for a free cluster starts. -/
structure Frame (v next : Volume) (entries clusters : Set ℕ) : Prop where
  bpb : next.bpb = v.bpb
  garbage : next.garbage = v.garbage
  cursor : v.bpb.Has v.lastFreeCluster → v.bpb.Has next.lastFreeCluster
  fatEntry : ∀ copy < v.bpb.fatCount, ∀ x < 128 * v.bpb.sectorsPerFat,
    x ∉ entries → next.fatEntry copy x = v.fatEntry copy x
  clusterBytes : ∀ x, v.bpb.Has x → x ∉ clusters →
    next.clusterBytes x = v.clusterBytes x
  mirrored : v.Mirrored → next.Mirrored

end Volume

section

variable {v w next : Volume} {cluster first value x : ℕ} {cs : List ℕ}
  {entries entries' clusters clusters' : Set ℕ}

theorem Bpb.Has.continues
    (h : v.bpb.Geometry) (hx : v.bpb.Has x) : Continues x :=
  (h.isCluster hx).2

namespace Volume

/-! ## Frames -/

theorem Frame.refl (v : Volume) : v.Frame v ∅ ∅ where
  bpb := rfl
  garbage := rfl
  cursor := id
  fatEntry _ _ _ _ _ := rfl
  clusterBytes _ _ _ := rfl
  mirrored := id

theorem Frame.trans
    (h : v.Frame w entries clusters)
    (h' : w.Frame next entries' clusters') :
    v.Frame next (entries ∪ entries') (clusters ∪ clusters') where
  bpb := h'.bpb.trans h.bpb
  garbage := h'.garbage.trans h.garbage
  cursor hcursor := by
    rw [← h.bpb]
    refine h'.cursor ?_
    rw [h.bpb]
    exact h.cursor hcursor
  fatEntry copy hcopy x hx hne := by
    rw [h'.fatEntry copy (h.bpb ▸ hcopy) x (h.bpb ▸ hx)
        (fun hmem => hne (.inr hmem)),
      h.fatEntry copy hcopy x hx (fun hmem => hne (.inl hmem))]
  clusterBytes x hx hne := by
    rw [h'.clusterBytes x (h.bpb ▸ hx) (fun hmem => hne (.inr hmem)),
      h.clusterBytes x hx (fun hmem => hne (.inl hmem))]
  mirrored hmirrored := h'.mirrored (h.mirrored hmirrored)

theorem Frame.mono
    (h : v.Frame next entries clusters) (hentries : entries ⊆ entries')
    (hclusters : clusters ⊆ clusters') :
    v.Frame next entries' clusters' where
  bpb := h.bpb
  garbage := h.garbage
  cursor := h.cursor
  fatEntry copy hcopy x hx hne :=
    h.fatEntry copy hcopy x hx fun hmem => hne (hentries hmem)
  clusterBytes x hx hne := h.clusterBytes x hx fun hmem => hne (hclusters hmem)
  mirrored := h.mirrored

theorem Frame.link
    (h : v.Frame next entries clusters) (htables : v.bpb.Tables)
    (hx : v.bpb.HasEntry x) (hne : x ∉ entries) :
    next.link x = v.link x := by
  unfold Volume.link
  rw [h.fatEntry 0 htables.copies x hx.1 hne]

theorem Frame.geometry
    (h : v.Frame next entries clusters) (hgeometry : v.bpb.Geometry) :
    next.bpb.Geometry := by
  rw [h.bpb]
  exact hgeometry

theorem Frame.bytesPerCluster
    (h : v.Frame next entries clusters) :
    next.bytesPerCluster = v.bytesPerCluster := by
  unfold Volume.bytesPerCluster
  rw [h.bpb]

theorem frame_cursor (v : Volume) (hcursor : v.bpb.Has cluster) :
    v.Frame { v with lastFreeCluster := cluster } ∅ ∅ where
  bpb := rfl
  garbage := rfl
  cursor _ := hcursor
  fatEntry _ _ _ _ _ := rfl
  clusterBytes _ _ _ := rfl
  mirrored := id

theorem frame_links
    (h : Links v next cluster value) (htables : v.bpb.Tables)
    (hentry : v.bpb.HasEntry cluster) : v.Frame next {cluster} ∅ where
  bpb := h.bpb
  garbage := h.garbage
  cursor hcursor := by
    rw [h.lastFreeCluster]
    exact hcursor
  fatEntry copy _ x hx hne := h.fatEntry_of_ne hentry hx hne copy
  clusterBytes x _ _ := h.clusterBytes hentry x
  mirrored hmirrored := by
    intro copy hcopy x hx
    rw [h.bpb] at hcopy hx
    by_cases hsame : x = cluster
    · subst hsame
      rw [h.entry copy hcopy, tableValue_link, h.link_same htables]
    · rw [h.fatEntry_of_ne hentry hx hsame, h.link_of_ne hentry hx hsame]
      exact hmirrored copy hcopy x hx

theorem frame_writeCluster
    (hgeometry : v.bpb.Geometry) (hcluster : v.bpb.Has cluster)
    (bytes : ByteStore) :
    v.Frame (writeCluster v cluster bytes) ∅ {cluster} where
  bpb := rfl
  garbage := rfl
  cursor := id
  fatEntry copy hcopy x hx _ :=
    writeCluster_fatEntry hgeometry hcluster bytes hcopy hx
  clusterBytes x hx hne :=
    writeCluster_clusterBytes_of_ne hgeometry hcluster hx hne bytes
  mirrored hmirrored := by
    intro copy hcopy x hx
    rw [writeCluster_fatEntry hgeometry hcluster bytes hcopy hx,
      writeCluster_link hgeometry hcluster bytes hx]
    exact hmirrored copy hcopy x hx

/-! ## Chains -/

theorem length_le_clusters
    (hchain : ChainFrom v.link Continues first cs)
    (hcs : ∀ x ∈ cs, v.bpb.Has x) : cs.length ≤ v.bpb.clusters := by
  have hsub : ∀ x ∈ cs, x ∈ Finset.Ico 2 (v.bpb.clusters + 2) :=
    fun x hx => Finset.mem_Ico.2 (hcs x hx)
  have hlength := hchain.length_le hsub
  rwa [Nat.card_Ico, Nat.add_sub_cancel] at hlength

/-- A chain within the volume that is found by its links. -/
theorem chain_eq
    (hchain : ChainFrom v.link Continues first cs)
    (hcs : ∀ x ∈ cs, v.bpb.Has x) : v.chain first = cs :=
  hchain.chainOf_eq (length_le_clusters hchain hcs)

theorem ends_of_chain
    (hchain : ChainFrom v.link Continues first cs)
    (hcs : ∀ x ∈ cs, v.bpb.Has x) (hfirst : first ∈ cs) : v.Ends first := by
  have hsame := chain_eq hchain hcs
  exact ⟨hcs first hfirst, hsame ▸ hchain, hsame ▸ hcs⟩

theorem Ends.mem
    (h : v.Ends first) (hgeometry : v.bpb.Geometry) :
    first ∈ v.chain first :=
  h.chain.first_mem (h.start.continues hgeometry)

theorem Ends.ne_nil
    (h : v.Ends first) (hgeometry : v.bpb.Geometry) : v.chain first ≠ [] :=
  List.ne_nil_of_mem (h.mem hgeometry)

/-- Every cluster of a chain is linked. -/
theorem Ends.link_ne_zero
    (h : v.Ends first) (hx : x ∈ v.chain first) : v.link x ≠ 0 := by
  intro hzero
  rcases h.chain.link_mem hx with hnext | hend
  · have hlow := (h.cluster _ hnext).1
    omega
  · refine hend ?_
    rw [hzero]
    unfold Continues
    norm_num

/-- A chain whose links are kept. -/
theorem Ends.congr
    (h : v.Ends first) (hbpb : next.bpb = v.bpb)
    (hlinks : ∀ x ∈ v.chain first, next.link x = v.link x) :
    next.Ends first ∧ next.chain first = v.chain first := by
  have hchain := h.chain.congr hlinks
  have hcs : ∀ x ∈ v.chain first, next.bpb.Has x := by
    rw [hbpb]
    exact h.cluster
  have hsame := chain_eq hchain hcs
  exact ⟨⟨hbpb ▸ h.start, hsame ▸ hchain, hsame ▸ hcs⟩, hsame⟩

theorem Ends.frame
    (h : v.Ends first) (hframe : v.Frame next entries clusters)
    (hgeometry : v.bpb.Geometry)
    (hdisjoint : ∀ x ∈ v.chain first, x ∉ entries) :
    next.Ends first ∧ next.chain first = v.chain first :=
  h.congr hframe.bpb fun x hx =>
    hframe.link hgeometry.tables (hgeometry.hasEntry (h.cluster x hx))
      (hdisjoint x hx)

end Volume

/-! ## Walking a chain -/

theorem not_isCluster (hend : ¬Continues x) : ¬IsCluster x :=
  fun h => hend h.2

section

variable {α : Type} {visit : ℕ → Buffer → Outcome (Option α)}
  {answer : ℕ → Option α}

theorem walkChain_chainFrom
    (hgeometry : v.bpb.Geometry)
    (hchain : ChainFrom v.link Continues first cs)
    (hcs : ∀ x ∈ cs, v.bpb.Has x)
    (hvisit : ∀ x ∈ cs,
      visit x ⟨v.bytesPerCluster, v.clusterBytes x⟩ = .ok (answer x))
    {fuel : ℕ} (hfuel : cs.length < fuel) (last : ℕ) :
    walkChain v visit fuel last first = .ok
      (match cs.findSome? answer with
      | some a => .inl a
      | none => .inr (cs.getLastD last)) := by
  induction cs generalizing first fuel last with
  | nil =>
      obtain ⟨fuel, rfl⟩ := Nat.exists_eq_succ_of_ne_zero hfuel.ne'
      rw [walkChain, if_neg (not_isCluster hchain)]
      rfl
  | cons head rest ih =>
      obtain ⟨fuel, rfl⟩ := Nat.exists_eq_succ_of_ne_zero
        (Nat.zero_lt_of_lt hfuel).ne'
      obtain ⟨rfl, -, hrest⟩ := hchain
      have hhas := hcs head List.mem_cons_self
      rw [walkChain, if_pos (hgeometry.isCluster hhas)]
      simp only [readCluster_eq hgeometry hhas,
        hvisit head List.mem_cons_self, bind, Except.bind]
      rw [List.findSome?_cons]
      cases answer head with
      | some a => rfl
      | none =>
          simp only [getNextCluster_eq hgeometry.tables
            (hgeometry.hasEntry hhas)]
          rw [ih hrest (fun x hx => hcs x (List.mem_cons_of_mem _ hx))
            (fun x hx => hvisit x (List.mem_cons_of_mem _ hx))
            (Nat.lt_of_succ_lt_succ hfuel), List.getLastD_cons]

/-- A walk of the driver over a chain of the volume. -/
theorem walkChain_eq
    (hgeometry : v.bpb.Geometry) (h : v.Ends first)
    (hvisit : ∀ x ∈ v.chain first,
      visit x ⟨v.bytesPerCluster, v.clusterBytes x⟩ = .ok (answer x)) :
    walkChain v visit chainFuel first first = .ok
      (match (v.chain first).findSome? answer with
      | some a => .inl a
      | none => .inr ((v.chain first).getLastD first)) := by
  refine walkChain_chainFrom hgeometry h.chain h.cluster hvisit ?_ first
  have hlength := Volume.length_le_clusters h.chain h.cluster
  have hclusters := hgeometry.clusters_le
  unfold chainFuel
  omega

end

end

end ClOs.Fat32
