import ClOs.Fat32Chains

/-!
# The bytes of a chain

The loops of `fat32_read_file` and `fat32_write_file` go through a chain cluster by
cluster, and the last part they move may be shorter than a cluster.  What is
written to a chain is what a later read of it delivers.
-/

namespace ClOs.Fat32

open ByteStore

def Volume.contents (v : Volume) : List ℕ → ByteStore
  | [] => fun _ => 0
  | c :: rest => fun k =>
      if k < v.bytesPerCluster then v.clusterBytes c k
      else v.contents rest (k - v.bytesPerCluster)

section

variable {v next : Volume} {first size total written k : ℕ} {cs : List ℕ}
  {buffer : ByteStore} {entries clusters : Set ℕ}

theorem bytesPerCluster_pos (hgeometry : v.bpb.Geometry) :
    0 < v.bytesPerCluster := by
  rw [bytesPerCluster_eq hgeometry]
  have hpos := hgeometry.cluster
  omega

theorem Volume.contents_cons_of_lt
    {c : ℕ} (hk : k < v.bytesPerCluster) :
    v.contents (c :: cs) k = v.clusterBytes c k := if_pos hk

theorem Volume.contents_cons_of_le
    {c : ℕ} (hk : v.bytesPerCluster ≤ k) :
    v.contents (c :: cs) k = v.contents cs (k - v.bytesPerCluster) :=
  if_neg (Nat.not_lt.2 hk)

theorem Volume.contents_congr
    (hbytes : next.bytesPerCluster = v.bytesPerCluster)
    (hsame : ∀ x ∈ cs, next.clusterBytes x = v.clusterBytes x) :
    next.contents cs = v.contents cs := by
  induction cs with
  | nil => rfl
  | cons c rest ih =>
      unfold Volume.contents
      rw [hbytes, hsame c List.mem_cons_self,
        ih fun x hx => hsame x (List.mem_cons_of_mem _ hx)]

theorem Volume.Frame.contents
    (h : v.Frame next entries clusters) (hcs : ∀ x ∈ cs, v.bpb.Has x)
    (hkeep : ∀ x ∈ cs, x ∉ clusters) : next.contents cs = v.contents cs :=
  Volume.contents_congr h.bytesPerCluster
    fun x hx => h.clusterBytes x (hcs x hx) (hkeep x hx)

/-- A copy of two parts that follow each other. -/
theorem blit_blit_contents
    {count more size : ℕ} (hcount : count = min size v.bytesPerCluster)
    (hmore : more = min (size - count) (cs.length * v.bytesPerCluster))
    (store : ByteStore) (address c : ℕ) :
    (store.blit address (v.clusterBytes c) count).blit (address + count)
        (v.contents cs) more =
      store.blit address (v.contents (c :: cs))
        (min size ((c :: cs).length * v.bytesPerCluster)) := by
  have hlength : (c :: cs).length * v.bytesPerCluster =
      cs.length * v.bytesPerCluster + v.bytesPerCluster := by
    rw [List.length_cons, Nat.add_mul, Nat.one_mul]
  rw [hlength]
  generalize cs.length * v.bytesPerCluster = rest at *
  funext k
  by_cases hsecond : address + count ≤ k ∧ k < address + count + more
  · have hfull : count = v.bytesPerCluster := by omega
    rw [blit_inside _ _ hsecond.1 hsecond.2,
      blit_inside _ _ (by omega) (by omega),
      Volume.contents_cons_of_le (by omega)]
    congr 1
    omega
  · rw [blit_outside _ _ (by omega)]
    by_cases hfirst : address ≤ k ∧ k < address + count
    · rw [blit_inside _ _ hfirst.1 hfirst.2,
        blit_inside _ _ hfirst.1 (by omega),
        Volume.contents_cons_of_lt (by omega)]
    · rw [blit_outside _ _ (by omega), blit_outside _ _ (by omega)]

/-! ## Reading -/

theorem readClusters_chain
    (hgeometry : v.bpb.Geometry)
    (hchain : ChainFrom v.link Continues first cs)
    (hcs : ∀ x ∈ cs, v.bpb.Has x) (htotal : total ≤ size)
    {fuel : ℕ} (hfuel : cs.length < fuel) (buffer : ByteStore) :
    readClusters v size fuel first total buffer =
      .ok (min size (total + cs.length * v.bytesPerCluster),
        buffer.blit total (v.contents cs)
          (min (size - total) (cs.length * v.bytesPerCluster))) := by
  induction cs generalizing first total fuel buffer with
  | nil =>
      obtain ⟨fuel, rfl⟩ := Nat.exists_eq_succ_of_ne_zero hfuel.ne'
      rw [readClusters, if_neg fun h => not_isCluster hchain h.1]
      have hnone : buffer.blit total (v.contents [])
          (min (size - total) (([] : List ℕ).length * v.bytesPerCluster)) =
            buffer := by
        funext k
        exact blit_outside _ _ (by simp; omega)
      rw [hnone]
      simp [htotal, pure, Except.pure]
  | cons c rest ih =>
      obtain ⟨fuel, rfl⟩ := Nat.exists_eq_succ_of_ne_zero
        (Nat.zero_lt_of_lt hfuel).ne'
      obtain ⟨rfl, -, hrest⟩ := hchain
      have hhas := hcs c List.mem_cons_self
      have hlength : (c :: rest).length * v.bytesPerCluster =
          rest.length * v.bytesPerCluster + v.bytesPerCluster := by
        rw [List.length_cons, Nat.add_mul, Nat.one_mul]
      by_cases hmore : total < size
      · rw [readClusters, if_pos ⟨hgeometry.isCluster hhas, hmore⟩]
        have hslice : (Buffer.mk v.bytesPerCluster (v.clusterBytes c)).slice 0
            (min (size - total) v.bytesPerCluster) =
              .ok (v.clusterBytes c) := by
          refine Buffer.slice_eq_ok.2 ⟨by simp, ?_⟩
          funext k
          simp
        simp only [readCluster_eq hgeometry hhas, hslice, bind, Except.bind,
          getNextCluster_eq hgeometry.tables (hgeometry.hasEntry hhas)]
        rw [ih hrest (fun x hx => hcs x (List.mem_cons_of_mem _ hx)) (by omega)
          (Nat.lt_of_succ_lt_succ hfuel),
          blit_blit_contents rfl (by congr 1; omega), hlength]
        congr 2
        omega
      · rw [readClusters, if_neg fun h => hmore h.2]
        have hnone : buffer.blit total (v.contents (c :: rest))
            (min (size - total) ((c :: rest).length * v.bytesPerCluster)) =
              buffer := by
          funext k
          exact blit_outside _ _ (by omega)
        rw [hnone, Nat.min_eq_left (by omega), show total = size by omega]
        rfl

theorem readClusters_eq
    (hgeometry : v.bpb.Geometry) (h : v.Ends first) (size : ℕ)
    (buffer : ByteStore) :
    readClusters v size (size + chainFuel + 1) first 0 buffer =
      .ok (min size ((v.chain first).length * v.bytesPerCluster),
        buffer.blit 0 (v.contents (v.chain first))
          (min size ((v.chain first).length * v.bytesPerCluster))) := by
  have hlength := Volume.length_le_clusters h.chain h.cluster
  have hclusters := hgeometry.clusters_le
  have hfuel : (v.chain first).length < size + chainFuel + 1 := by
    unfold chainFuel
    omega
  rw [readClusters_chain hgeometry h.chain h.cluster (Nat.zero_le size) hfuel,
    Nat.zero_add, Nat.sub_zero]

/-! ## Writing -/

theorem slice_chunk
    (hgeometry : v.bpb.Geometry) (buffer : ByteStore) (written chunk : ℕ) :
    (Buffer.mk v.bytesPerCluster
        (blit (fun _ => 0) 0 (buffer.drop written) chunk)).slice 0
      (512 * sectorsMoved v.bpb.sectorsPerCluster) =
        .ok (blit (fun _ => 0) 0 (buffer.drop written) chunk) := by
  rw [sectorsMoved_cluster]
  refine Buffer.slice_eq_ok.2 ⟨?_, ?_⟩
  · rw [bytesPerCluster_eq hgeometry, Nat.zero_add]
  · funext k
    simp

theorem writeClusters_chain
    (hgeometry : v.bpb.Geometry)
    (hchain : ChainFrom v.link Continues first cs)
    (hcs : ∀ x ∈ cs, v.bpb.Has x) (hwritten : written ≤ size)
    {fuel : ℕ} (hfuel : cs.length < fuel) (buffer : ByteStore) :
    ∃ next, writeClusters buffer size fuel first written v =
        .ok (min size (written + cs.length * v.bytesPerCluster), next) ∧
      v.Frame next ∅ {x | x ∈ cs} ∧
      ∀ k < cs.length * v.bytesPerCluster, written + k < size →
        next.contents cs k = buffer (written + k) := by
  induction cs generalizing first written fuel v with
  | nil =>
      obtain ⟨fuel, rfl⟩ := Nat.exists_eq_succ_of_ne_zero hfuel.ne'
      rw [writeClusters, if_neg fun h => not_isCluster hchain h.1]
      refine ⟨v, ?_, (Volume.Frame.refl v).mono le_rfl (Set.empty_subset _), ?_⟩
      · simp [hwritten, pure, Except.pure]
      · intro k hk
        simp at hk
  | cons c rest ih =>
      obtain ⟨fuel, rfl⟩ := Nat.exists_eq_succ_of_ne_zero
        (Nat.zero_lt_of_lt hfuel).ne'
      have hnodup := hchain.nodup
      obtain ⟨rfl, -, hrest⟩ := hchain
      have hhas := hcs c List.mem_cons_self
      have htail : ∀ x ∈ rest, v.bpb.Has x :=
        fun x hx => hcs x (List.mem_cons_of_mem _ hx)
      have hlength : (c :: rest).length * v.bytesPerCluster =
          rest.length * v.bytesPerCluster + v.bytesPerCluster := by
        rw [List.length_cons, Nat.add_mul, Nat.one_mul]
      by_cases hmore : written < size
      · rw [writeClusters, if_pos ⟨hgeometry.isCluster hhas, hmore⟩]
        simp only [slice_chunk hgeometry, bind, Except.bind]
        generalize hbytes : blit (fun _ => 0) 0 (buffer.drop written)
          (min (size - written) v.bytesPerCluster) = bytes
        have hfirst := Volume.frame_writeCluster hgeometry hhas bytes
        have hlinks : ∀ x ∈ c :: rest,
            (writeCluster v c bytes).link x = v.link x := fun x hx =>
          writeCluster_link hgeometry hhas bytes
            (hgeometry.hasEntry (hcs x hx)).1
        have hnext : getNextCluster (writeCluster v c bytes) c =
            .ok (v.link c) := by
          rw [← hlinks c List.mem_cons_self]
          exact getNextCluster_eq hgeometry.tables (hgeometry.hasEntry hhas)
        rw [hnext]
        have hchunk : written + min (size - written) v.bytesPerCluster ≤ size := by
          omega
        obtain ⟨next, hwrite, hframe, hstored⟩ :=
          @ih (writeCluster v c bytes) (v.link c) _ hgeometry
            (hrest.congr fun x hx => hlinks x (List.mem_cons_of_mem _ hx)) htail
            hchunk _ (Nat.lt_of_succ_lt_succ hfuel)
        refine ⟨next, ?_, (hfirst.trans hframe).mono (by simp) ?_, ?_⟩
        · simp only
          rw [hwrite, hlength]
          have hsame : (writeCluster v c bytes).bytesPerCluster =
              v.bytesPerCluster := rfl
          rw [hsame]
          congr 2
          omega
        · rintro x (rfl | hx)
          · exact List.mem_cons_self
          · exact List.mem_cons_of_mem _ hx
        · intro k hk hsize
          have hwidth : next.bytesPerCluster = v.bytesPerCluster :=
            hframe.bytesPerCluster
          by_cases hhead : k < v.bytesPerCluster
          · have hkeep : next.clusterBytes c =
                (writeCluster v c bytes).clusterBytes c :=
              hframe.clusterBytes c hhas (List.nodup_cons.1 hnodup).1
            rw [Volume.contents_cons_of_lt (by omega), hkeep,
              writeCluster_clusterBytes_same hgeometry hhas,
              ← bytesPerCluster_eq hgeometry,
              blit_inside _ _ (Nat.zero_le k) (by omega), ← hbytes,
              blit_inside _ _ (Nat.zero_le _) (by omega)]
            rfl
          · have hrest : k - v.bytesPerCluster <
                rest.length * v.bytesPerCluster := by
              omega
            rw [Volume.contents_cons_of_le (by omega), hwidth,
              hstored (k - v.bytesPerCluster) hrest (by omega)]
            congr 1
            omega
      · rw [writeClusters, if_neg fun h => hmore h.2]
        refine ⟨v, ?_, (Volume.Frame.refl v).mono le_rfl (Set.empty_subset _),
          fun k _ hk => absurd hk (by omega)⟩
        rw [Nat.min_eq_left (by omega), show written = size by omega]
        rfl

end

end ClOs.Fat32
