import ClOs.Fat32Deletion

/-!
# Creating files and directories

A new file or directory is a chain of free clusters and an entry that leads to it.
Until the entry is there the chain belongs to nobody, and the tree is as before.
-/

namespace ClOs.Fat32

open ByteStore

/-- `w` is `v` with a new chain of clusters that were free. -/
structure Takes (v w : Volume) (first : ℕ) (cs : List ℕ) : Prop where
  frame : v.Frame w {x | x ∈ cs} {x | x ∈ cs}
  free : ∀ x ∈ cs, v.Free x
  chain : ChainFrom w.link Continues first cs
  first : first ∈ cs

/-- A chain that belongs to nobody. -/
structure Volume.Loose (v : Volume) (first : ℕ) : Prop where
  ends : v.Ends first
  spare : ∀ x ∈ v.chain first, v.Spare x

section

variable {v w next : Volume} {d x first : ℕ} {e f : Entry} {path : CString}
  {cs extra : List ℕ}

/-! ## A chain without an entry -/

theorem Takes.chain_eq
    (h : Takes v w first cs) : w.Ends first ∧ w.chain first = cs := by
  have hcs : ∀ x ∈ cs, w.bpb.Has x := by
    rw [h.frame.bpb]
    exact fun x hx => (h.free x hx).1
  exact ⟨Volume.ends_of_chain h.chain hcs h.first,
    Volume.chain_eq h.chain hcs⟩

section

variable (h : Takes v w first cs) (hsound : v.Sound)

include h hsound

/-- The tree does not change. -/
theorem Takes.sound : w.Sound ∧ v.forest.Agrees w.forest :=
  hsound.frame h.frame (fun x hx => hsound.spare_of_free (h.free x hx))
    fun x hx => hsound.spare_of_free (h.free x hx)

theorem Takes.owned_chain (hx : v.forest.Owned x) : w.chain x = v.chain x := by
  refine ((hsound.ends x hx).frame h.frame hsound.geometry ?_).2
  exact fun y hy hmem => hsound.spare_of_free (h.free y hmem) x hx hy

theorem Takes.loose : w.Loose first := by
  obtain ⟨hends, hchain⟩ := h.chain_eq
  refine ⟨hends, fun x hx y hy => ?_⟩
  have hold := (h.sound hsound).2.owned_iff.1 hy
  rw [hchain] at hx
  rw [h.owned_chain hsound hold]
  exact hsound.spare_of_free (h.free x hx) y hold

omit hsound in
/-- The clusters of the chain are no longer free. -/
theorem Takes.free_iff (hgeometry : v.bpb.Geometry) :
    w.Free x ↔ v.Free x ∧ x ∉ cs := by
  obtain ⟨hends, hchain⟩ := h.chain_eq
  unfold Volume.Free
  rw [h.frame.bpb]
  constructor
  · rintro ⟨hx, hzero⟩
    have hmem : x ∉ cs := by
      intro hmem
      rw [← hchain] at hmem
      exact hends.link_ne_zero hmem hzero
    refine ⟨⟨hx, ?_⟩, hmem⟩
    rw [← h.frame.link hgeometry.tables (hgeometry.hasEntry hx) hmem]
    exact hzero
  · rintro ⟨⟨hx, hzero⟩, hmem⟩
    refine ⟨hx, ?_⟩
    rw [h.frame.link hgeometry.tables (hgeometry.hasEntry hx) hmem]
    exact hzero

end

/-! ## The entry -/

/-- A chain that belongs to nobody starts at no file or directory of the tree. -/
theorem Volume.Loose.not_owned
    (h : v.Loose first) (hsound : v.Sound) : ¬v.forest.Owned first :=
  fun howned => h.spare first (h.ends.mem hsound.geometry) first howned
    (h.ends.mem hsound.geometry)

section

variable (hsound : v.Sound) (hd : v.forest.Directory d)
  (hinserts : Inserts v next d e extra)

include hinserts

theorem Inserts.apart
    (hx : ∀ y ∈ v.chain x, v.link y ≠ 0)
    (hdisjoint : (v.chain x).Disjoint (v.chain d)) :
    ∀ y ∈ v.chain x, y ∉ v.chain d ++ extra := by
  intro y hy hmem
  rcases List.mem_append.1 hmem with hmem | hmem
  · exact hdisjoint hy hmem
  · exact hx y hy (hinserts.free y hmem).2

include hsound hd

theorem Inserts.owned_apart (hx : v.forest.Owned x) (hne : x ≠ d) :
    ∀ y ∈ v.chain x, y ∉ v.chain d ++ extra :=
  hinserts.apart (fun _ hy => (hsound.ends x hx).link_ne_zero hy)
    (hsound.disjoint x d hx hd.owned hne)

theorem Inserts.slots_eq (hx : v.forest.Directory x) (hne : x ≠ d) :
    next.slots x = v.slots x :=
  hinserts.frame.slots hsound.geometry (hsound.ends x hx.owned)
    (hinserts.owned_apart hsound hd hx.owned hne)
    (hinserts.owned_apart hsound hd hx.owned hne)

theorem Inserts.entries_eq (hx : v.forest.Directory x) (hne : x ≠ d) :
    next.entries x = v.entries x := by
  unfold Volume.entries Volume.live
  rw [hinserts.slots_eq hsound hd hx hne]

omit hsound in
theorem Inserts.loose_apart (hloose : v.Loose x) :
    ∀ y ∈ v.chain x, y ∉ v.chain d ++ extra :=
  hinserts.apart (fun _ hy => hloose.ends.link_ne_zero hy)
    fun _ hy hmem => hloose.spare _ hy d hd.owned hmem

theorem Inserts.loose_slots (hloose : v.Loose x) :
    next.slots x = v.slots x :=
  hinserts.frame.slots hsound.geometry hloose.ends
    (hinserts.loose_apart hd hloose)
    (hinserts.loose_apart hd hloose)

/-- The chains of the volume with the entry, seen from the volume without it. -/
theorem Inserts.ends_of
    (hx : v.forest.Owned x ∨ v.Loose x) :
    next.Ends x ∧ ∀ y ∈ next.chain x, y ∈ v.chain x ∨ (x = d ∧ y ∈ extra) := by
  by_cases hsame : x = d
  · subst hsame
    refine ⟨hinserts.ends, fun y hy => ?_⟩
    rw [hinserts.chain, List.mem_append] at hy
    exact hy.imp_right fun hmem => ⟨rfl, hmem⟩
  · have hkept : next.Ends x ∧ next.chain x = v.chain x := by
      rcases hx with hx | hx
      · exact (hsound.ends x hx).frame hinserts.frame hsound.geometry
          (hinserts.owned_apart hsound hd hx hsame)
      · exact hx.ends.frame hinserts.frame hsound.geometry
          (hinserts.loose_apart hd hx)
    exact ⟨hkept.1, fun y hy => .inl (hkept.2 ▸ hy)⟩

/-- The chains stay apart. -/
theorem Inserts.disjoint_of
    {y : ℕ} (hx : v.forest.Owned x ∨ v.Loose x)
    (hy : v.forest.Owned y ∨ v.Loose y)
    (hpair : (v.chain x).Disjoint (v.chain y)) (hne : x ≠ y) :
    (next.chain x).Disjoint (next.chain y) := by
  have hlinked : ∀ {z}, v.forest.Owned z ∨ v.Loose z →
      ∀ t ∈ v.chain z, t ∉ extra := by
    intro z hz t ht hmem
    refine absurd (hinserts.free t hmem).2 ?_
    rcases hz with hz | hz
    · exact (hsound.ends z hz).link_ne_zero ht
    · exact hz.ends.link_ne_zero ht
  intro t htx hty
  rcases (hinserts.ends_of hsound hd hx).2 t htx with hold | ⟨rfl, hmem⟩
  · rcases (hinserts.ends_of hsound hd hy).2 t hty with hold' | ⟨rfl, hmem⟩
    · exact hpair hold hold'
    · exact hlinked hx t hold hmem
  · rcases (hinserts.ends_of hsound hd hy).2 t hty with hold | ⟨rfl, -⟩
    · exact hlinked hy t hold hmem
    · exact hne rfl

end

/-- An entry of a chain that belongs to nobody, as it is put into a directory. -/
structure Volume.Admits (v : Volume) (e : Entry) : Prop where
  loose : v.Loose e.firstCluster
  used : e.isEnd = false
  name : e.name ∉ dotNames
  plain : e.isLongName = false
  empty : e.isDirectory = true → v.entries e.firstCluster = []
  closed : e.isDirectory = true → v.Closed e.firstCluster

section

variable (hsound : v.Sound) (hd : v.forest.Directory d)
  (hinserts : Inserts v next d e extra) (hadmits : v.Admits e)

include hsound hd hinserts hadmits

theorem Inserts.adds (hkept : e.isDeleted = false) :
    v.forest.Adds next.forest d e where
  directory := hd
  root := by
    unfold Volume.forest Volume.rootCluster
    rw [hinserts.frame.bpb]
  target := rfl
  inner := rfl
  name := rfl
  items := by
    obtain ⟨before, after, hold, hnew⟩ := hinserts.live
    refine ⟨before.filter (fun f => decide (f.name ∉ dotNames)),
      after.filter (fun f => decide (f.name ∉ dotNames)), ?_, ?_⟩
    · rw [forest_items]
      unfold Volume.entries
      rw [hold, List.filter_append]
    · have hone : liveSlots Entry.isEnd Entry.isDeleted [e] = [e] :=
        liveSlots_cons_of_live hadmits.used hkept
      rw [forest_items]
      unfold Volume.entries
      rw [hnew, hone, List.filter_append, List.filter_append,
        List.append_assoc]
      congr 1
      rw [List.filter_singleton]
      simp [hadmits.name]
  others := fun x hx hne => hinserts.entries_eq hsound hd hx hne
  fresh := hadmits.loose.not_owned hsound
  empty := by
    intro hinner
    rw [forest_items, forest_target]
    unfold Volume.entries Volume.live
    rw [hinserts.loose_slots hsound hd hadmits.loose]
    exact hadmits.empty hinner

/-- The volume with the entry is sound again. -/
theorem Inserts.sound (hkept : e.isDeleted = false) : next.Sound := by
  have hadds := hinserts.adds hsound hd hadmits hkept
  have howned : ∀ {x}, next.forest.Owned x → v.forest.Owned x ∨
      v.Loose x ∧ x = e.firstCluster := by
    intro x hx
    refine (hadds.owned_iff.1 hx).imp_right ?_
    rintro rfl
    exact ⟨hadmits.loose, rfl⟩
  refine ⟨hinserts.frame.geometry hsound.geometry, hadds.tree hsound.tree,
    fun x hx => (hinserts.ends_of hsound hd
      ((howned hx).imp_right And.left)).1, ?_, ?_, ?_⟩
  · intro x y hx hy hne
    refine hinserts.disjoint_of hsound hd ((howned hx).imp_right And.left)
      ((howned hy).imp_right And.left) ?_ hne
    rcases howned hx with hx | ⟨hx, rfl⟩
    · rcases howned hy with hy | ⟨hy, rfl⟩
      · exact hsound.disjoint x y hx hy hne
      · exact fun t htx hty => hy.spare t hty x hx htx
    · rcases howned hy with hy | ⟨-, rfl⟩
      · exact fun t htx hty => hx.spare t htx y hy hty
      · exact absurd rfl hne
  · intro x hx f hf
    rcases hadds.item_cases hx hf with ⟨hold, hkeep⟩ | ⟨-, rfl⟩
    · exact hsound.plain x hold f hkeep
    · exact hadmits.plain
  · intro x hx
    by_cases hsame : x = d
    · rw [hsame]
      exact hinserts.closed
    · unfold Volume.Closed
      rcases hadds.directory_iff.1 hx with hold | ⟨hinner, rfl⟩
      · rw [hinserts.slots_eq hsound hd hold hsame]
        exact hsound.closed x hold
      · rw [forest_target, hinserts.loose_slots hsound hd hadmits.loose]
        exact hadmits.closed hinner

end

section

variable (hsound : v.Sound) (hd : v.forest.Directory d)
  (hinserts : Inserts v next d e extra) (hgone : e.isDeleted = true)

include hsound hd hinserts hgone

/-- An entry whose name starts with the deletion mark is not there. -/
theorem Inserts.agrees (hused : e.isEnd = false) :
    v.forest.Agrees next.forest where
  root := by
    unfold Volume.forest Volume.rootCluster
    rw [hinserts.frame.bpb]
  target := rfl
  inner := rfl
  name := rfl
  items := by
    intro x hx
    by_cases hsame : x = d
    · subst hsame
      obtain ⟨before, after, hold, hnew⟩ := hinserts.live
      have hnone : liveSlots Entry.isEnd Entry.isDeleted [e] = [] := by
        rw [liveSlots_cons_of_gone hused hgone]
        rfl
      rw [forest_items, forest_items]
      unfold Volume.entries
      rw [hnew, hold, hnone, List.append_nil]
    · exact hinserts.entries_eq hsound hd hx hsame

theorem Inserts.sound_of_deleted (hused : e.isEnd = false) : next.Sound := by
  have hagrees := hinserts.agrees hsound hd hgone hused
  refine ⟨hinserts.frame.geometry hsound.geometry, hagrees.tree hsound.tree,
    fun x hx => (hinserts.ends_of hsound hd
      (.inl (hagrees.owned_iff.1 hx))).1, ?_, ?_, ?_⟩
  · intro x y hx hy hne
    rw [hagrees.owned_iff] at hx hy
    exact hinserts.disjoint_of hsound hd (.inl hx) (.inl hy)
      (hsound.disjoint x y hx hy hne) hne
  · intro x hx f hf
    rw [hagrees.directory_iff] at hx
    rw [← forest_items, hagrees.items x hx] at hf
    exact hsound.plain x hx f hf
  · intro x hx
    rw [hagrees.directory_iff] at hx
    by_cases hsame : x = d
    · rw [hsame]
      exact hinserts.closed
    · unfold Volume.Closed
      rw [hinserts.slots_eq hsound hd hx hsame]
      exact hsound.closed x hx

end

end

end ClOs.Fat32
