import ClOs.Fat32Writing

/-!
# Runs of calls

On a sound volume every call of the driver that names a file or a directory returns
and leaves the volume sound, whatever it finds there and however few clusters are
free.  The copies of the table stay equal over such runs.
-/

namespace ClOs.Fat32

open ByteStore

/-- A path of the driver that ends in a name. -/
structure Named (path : CString) : Prop where
  text : 0 ∉ path
  length : (dropSlash path).length < 256
  name : fileName path ≠ []

/-- What `fat32_delete` does on a sound volume. -/
inductive Releases (v : Volume) (path : CString) : Bool → Volume → Prop
  | missing : v.lookup path = none → Releases v path false v
  | occupied {e : Entry} {d : ℕ} : v.lookup path = some (e, d) →
      ¬v.Deletable e → Releases v path false v
  | released {next : Volume} {e : Entry} {d : ℕ} :
      v.lookup path = some (e, d) → v.Deletable e → Deletes v next d e →
      Releases v path true next

/-- A call that changes the volume. -/
inductive Call
  | write (path : CString) (buffer : ByteStore) (size : ℕ)
  | createDirectory (path : CString)
  | delete (path : CString)

namespace Call

def path : Call → CString
  | write path _ _ => path
  | createDirectory path => path
  | delete path => path

def run (v : Volume) : Call → Outcome Volume
  | write path buffer size => do
      let (_, next) ← fat32WriteFile v path buffer size
      return next
  | createDirectory path => do
      let (_, next) ← fat32CreateDirectory v path
      return next
  | delete path => do
      let (_, next) ← fat32Delete v path
      return next

end Call

def runCalls : List Call → Volume → Outcome Volume
  | [], v => return v
  | call :: rest, v => do
      let next ← call.run v
      runCalls rest next

section

variable {v next : Volume} {d : ℕ} {e : Entry} {path : CString}
  {buffer : ByteStore} {size : ℕ} {done : Bool}

/-! ## Paths -/

theorem stripSlash_subset (path : CString) : stripSlash path ⊆ path := by
  unfold stripSlash
  split_ifs
  · exact List.dropLast_subset path
  · exact List.Subset.refl path

theorem dropSlash_subset (path : CString) : dropSlash path ⊆ path := by
  unfold dropSlash
  split_ifs
  · exact List.tail_subset path
  · exact List.Subset.refl path

theorem fileName_subset (path : CString) : fileName path ⊆ path := by
  have hstrip := List.Subset.trans (stripSlash_subset (dropSlash path))
    (dropSlash_subset path)
  unfold fileName
  simp only
  cases lastSlash (stripSlash (dropSlash path)) with
  | none => exact hstrip
  | some i => exact List.Subset.trans (List.drop_subset _ _) hstrip

theorem Named.text_name (h : Named path) : 0 ∉ fileName path :=
  fun hmem => h.text (fileName_subset path hmem)

theorem Canonical.named
    (h : Canonical path) (hroot : components path ≠ []) : Named path where
  text := h.text
  length := (length_dropSlash_le path).trans_lt h.length
  name := fun hnil => h.back ((fileName_eq_nil_iff hroot).1 hnil)

/-! ## One call -/

theorem fat32Delete_releases
    (h : v.Sound) (hpath : Named path) :
    ∃ done next, fat32Delete v path = .ok (done, next) ∧
      Releases v path done next := by
  have hfind := h.findFile_eq hpath.length
  cases hlookup : v.lookup path with
  | none =>
      rw [hlookup] at hfind
      exact ⟨false, v, fat32Delete_none hfind, .missing hlookup⟩
  | some found =>
      obtain ⟨e, d⟩ := found
      rw [hlookup] at hfind
      obtain ⟨hfront, hentry⟩ := (Volume.lookup_eq_some hpath.name).1 hlookup
      have hd := Forest.directory_of_enter v.directory_root hfront
      have he := (Forest.find_eq_some hentry).1
      by_cases hempty : v.Deletable e
      · obtain ⟨next, hdelete, hdel⟩ :=
          fat32Delete_deletes h hpath.length hpath.name hlookup hempty
        exact ⟨true, next, hdelete, .released hlookup hempty hdel⟩
      · exact ⟨false, v, fat32Delete_occupied h hd he hfind hempty,
          .occupied hlookup hempty⟩

theorem Releases.frame (h : Releases v path done next) :
    v.Frame next Set.univ Set.univ := by
  cases h with
  | missing _ =>
      exact (Volume.Frame.refl v).mono (Set.subset_univ _) (Set.subset_univ _)
  | occupied _ _ =>
      exact (Volume.Frame.refl v).mono (Set.subset_univ _) (Set.subset_univ _)
  | released _ _ hdel =>
      exact hdel.frame.mono (Set.subset_univ _) (Set.subset_univ _)

theorem Releases.sound
    (h : Releases v path done next) (hsound : v.Sound) (hpath : Named path) :
    next.Sound := by
  cases h with
  | missing _ => exact hsound
  | occupied _ _ => exact hsound
  | released hlookup hempty hdel =>
      obtain ⟨hfront, hentry⟩ := (Volume.lookup_eq_some hpath.name).1 hlookup
      exact hdel.sound hsound
        (Forest.directory_of_enter v.directory_root hfront)
        (Forest.find_eq_some hentry).1 hempty

/-- The directory that a path is in stays when its target is deleted. -/
theorem Releases.directory
    (h : Releases v path done next) (hsound : v.Sound) (hpath : Named path)
    (hfront : v.forest.enter v.rootCluster (parentNames path) = some d) :
    next.forest.Directory d := by
  have hd := Forest.directory_of_enter v.directory_root hfront
  cases h with
  | missing _ => exact hd
  | occupied _ _ => exact hd
  | @released _ e _ hlookup hempty hdel =>
      obtain ⟨hfront', hentry⟩ := (Volume.lookup_eq_some hpath.name).1 hlookup
      rw [hfront, Option.some.injEq] at hfront'
      subst hfront'
      have he := (Forest.find_eq_some hentry).1
      exact ((hdel.removes hsound hd he hempty).adds hsound.tree).directory

theorem fat32WriteFile_cases
    (h : v.Sound) (hcursor : v.bpb.Has v.lastFreeCluster)
    (hpath : Named path) (buffer : ByteStore) (size : ℕ) :
    (v.forest.enter v.rootCluster (parentNames path) = none ∧
      fat32WriteFile v path buffer size = .ok (0, v)) ∨
    ∃ d done mid written next,
      v.forest.enter v.rootCluster (parentNames path) = some d ∧
      fat32Delete v path = .ok (done, mid) ∧ Releases v path done mid ∧
      mid.Sound ∧ mid.forest.Directory d ∧
      fat32WriteFile v path buffer size = .ok (written, next) ∧
      Writes mid d (fileName path) buffer size written next := by
  have hparent := h.resolveParentDirectory_eq hpath.length hpath.name
  cases hfront : v.forest.enter v.rootCluster (parentNames path) with
  | none =>
      rw [hfront, Option.getD_none] at hparent
      refine .inl ⟨rfl, ?_⟩
      unfold fat32WriteFile
      rw [hparent]
      rfl
  | some d =>
      rw [hfront, Option.getD_some] at hparent
      obtain ⟨done, mid, hdelete, hreleases⟩ := fat32Delete_releases h hpath
      have hsound := hreleases.sound h hpath
      have hd := hreleases.directory h hpath hfront
      have hmid : mid.bpb.Has mid.lastFreeCluster := by
        rw [hreleases.frame.bpb]
        exact hreleases.frame.cursor hcursor
      obtain ⟨written, next, hwrite, hwrites⟩ := fat32WriteFile_writes hparent
        hdelete hsound hd hmid hpath.text_name buffer size
      exact .inr ⟨d, done, mid, written, next, rfl, hdelete, hreleases, hsound,
        hd, hwrite, hwrites⟩

theorem fat32CreateDirectory_cases
    (h : v.Sound) (hcursor : v.bpb.Has v.lastFreeCluster)
    (hpath : Named path) :
    (v.lookup path ≠ none ∧ fat32CreateDirectory v path = .ok (false, v)) ∨
    (v.forest.enter v.rootCluster (parentNames path) = none ∧
      fat32CreateDirectory v path = .ok (false, v)) ∨
    ∃ d made next, v.lookup path = none ∧
      v.forest.enter v.rootCluster (parentNames path) = some d ∧
      fat32CreateDirectory v path = .ok (made, next) ∧
      Makes v d (fileName path) made next := by
  have hfind := h.findFile_eq hpath.length
  have hparent := h.resolveParentDirectory_eq hpath.length hpath.name
  cases hlookup : v.lookup path with
  | some found =>
      rw [hlookup] at hfind
      refine .inl ⟨Option.some_ne_none _, ?_⟩
      unfold fat32CreateDirectory
      rw [hfind]
      rfl
  | none =>
      rw [hlookup] at hfind
      cases hfront : v.forest.enter v.rootCluster (parentNames path) with
      | none =>
          rw [hfront, Option.getD_none] at hparent
          refine .inr (.inl ⟨rfl, ?_⟩)
          unfold fat32CreateDirectory
          rw [hfind]
          simp only [bind, ok_bind]
          rw [hparent]
          rfl
      | some d =>
          rw [hfront, Option.getD_some] at hparent
          have hd := Forest.directory_of_enter v.directory_root hfront
          obtain ⟨made, next, hmake, hmakes⟩ := fat32CreateDirectory_makes
            hfind hparent h hd hcursor hpath.text_name
          exact .inr (.inr ⟨d, made, next, rfl, rfl, hmake, hmakes⟩)

/-- A call returns, and the volume is sound again. -/
theorem Call.run_ok
    (h : v.Sound) (hcursor : v.bpb.Has v.lastFreeCluster) (call : Call)
    (hpath : Named call.path) :
    ∃ next, call.run v = .ok next ∧ next.Sound ∧
      v.Frame next Set.univ Set.univ := by
  have hrefl : v.Frame v Set.univ Set.univ :=
    (Volume.Frame.refl v).mono (Set.subset_univ _) (Set.subset_univ _)
  cases call with
  | write path buffer size =>
      have hnamed : Named path := hpath
      rcases fat32WriteFile_cases h hcursor hnamed buffer size with
        ⟨-, hwrite⟩ | ⟨d, done, mid, written, next, -, -, hreleases, hsound, hd,
          hwrite, hwrites⟩
      · exact ⟨v, by rw [run, hwrite]; rfl, h, hrefl⟩
      · exact ⟨next, by rw [run, hwrite]; rfl,
          hwrites.sound hsound hd hnamed.text_name,
          (hreleases.frame.trans hwrites.frame).mono (Set.subset_univ _)
            (Set.subset_univ _)⟩
  | createDirectory path =>
      have hnamed : Named path := hpath
      rcases fat32CreateDirectory_cases h hcursor hnamed with
        ⟨-, hmake⟩ | ⟨-, hmake⟩ | ⟨d, made, next, -, hfront, hmake, hmakes⟩
      · exact ⟨v, by rw [run, hmake]; rfl, h, hrefl⟩
      · exact ⟨v, by rw [run, hmake]; rfl, h, hrefl⟩
      · exact ⟨next, by rw [run, hmake]; rfl, hmakes.sound h
          (Forest.directory_of_enter v.directory_root hfront) hnamed.text_name,
          hmakes.frame⟩
  | delete path =>
      have hnamed : Named path := hpath
      obtain ⟨done, next, hdelete, hreleases⟩ := fat32Delete_releases h hnamed
      exact ⟨next, by rw [run, hdelete]; rfl, hreleases.sound h hnamed,
        hreleases.frame⟩

theorem runCalls_keeps
    {Keeps : Volume → Prop} {Meets : Volume → Call → Prop}
    (hstep : ∀ w call, Keeps w → Meets w call →
      ∃ next, call.run w = .ok next ∧ Keeps next)
    {calls : List Call} (hmeets : ∀ call ∈ calls, ∀ w, Keeps w → Meets w call)
    (h : Keeps v) : ∃ next, runCalls calls v = .ok next ∧ Keeps next := by
  induction calls generalizing v with
  | nil => exact ⟨v, rfl, h⟩
  | cons call rest ih =>
      obtain ⟨mid, hrun, hmid⟩ :=
        hstep v call h (hmeets call List.mem_cons_self v h)
      obtain ⟨next, hrest, hnext⟩ :=
        ih (fun other hother => hmeets other (List.mem_cons_of_mem _ hother)) hmid
      refine ⟨next, ?_, hnext⟩
      rw [runCalls, hrun]
      exact hrest

end

end ClOs.Fat32
