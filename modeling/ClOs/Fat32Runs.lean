import ClOs.Fat32Storing

/-!
# What runs of calls keep

Whatever the calls of a run find and however few clusters are free, a path that
passes through none of their targets leads to the same entry and the same bytes
afterwards.  Names stay unique as long as no write names an occupied directory:
the driver does not delete such a directory and adds the file beside it.
-/

namespace ClOs.Fat32

/-- Every call of a run meets a condition on the volume that it finds. -/
def MeetsAlong (Meets : Volume → Call → Prop) : List Call → Volume → Prop
  | [], _ => True
  | call :: rest, v => Meets v call ∧
      ∀ next, call.run v = .ok next → MeetsAlong Meets rest next

def Call.Spares (v : Volume) : Call → Prop
  | write path _ _ => ∀ e d, findFile v path = .ok (some (e, d)) →
      v.Deletable e
  | createDirectory _ => True
  | delete _ => True

/-- The volume has unique names and a place to search from, and a path leads to
what it led to on another volume. -/
structure Volume.KeepsAlong (v w : Volume) (other : CString) : Prop where
  wellFormed : w.WellFormed
  cursor : w.bpb.Has w.lastFreeCluster
  keeps : Keeps v w other

section

variable {v w next : Volume} {d first size written : ℕ} {e : Entry}
  {path name other : CString} {cs extra : List ℕ} {buffer : ByteStore}
  {made : Bool} {calls : List Call}

theorem runCalls_along
    {Keeps : Volume → Prop} {Meets : Volume → Call → Prop}
    (hstep : ∀ w, ∀ call ∈ calls, Keeps w → Meets w call →
      ∃ next, call.run w = .ok next ∧ Keeps next)
    (hmeets : MeetsAlong Meets calls v) (h : Keeps v) :
    ∃ next, runCalls calls v = .ok next ∧ Keeps next := by
  induction calls generalizing v with
  | nil => exact ⟨v, rfl, h⟩
  | cons call rest ih =>
      obtain ⟨hfirst, hrest⟩ := hmeets
      obtain ⟨mid, hrun, hmid⟩ := hstep v call List.mem_cons_self h hfirst
      obtain ⟨next, hnext, hlast⟩ :=
        ih (fun w other hother => hstep w other (List.mem_cons_of_mem _ hother))
          (hrest mid hrun) hmid
      refine ⟨next, ?_, hlast⟩
      rw [runCalls, hrun]
      exact hnext

theorem Keeps.refl (v : Volume) (path : CString) : Keeps v v path :=
  ⟨rfl, fun _ _ _ _ _ => rfl⟩

/-! ## A new chain and its entry -/

theorem Takes.wellFormed
    (h : Takes v w first cs) (hwell : v.WellFormed) : w.WellFormed := by
  obtain ⟨hsound, hagrees⟩ := h.sound hwell.toSound
  exact ⟨hsound, hagrees.unique hwell.unique⟩

/-- An entry that the driver takes for a deleted one changes no path. -/
theorem Inserts.keeps_of_deleted
    (h : Inserts v next d e extra) (hwell : v.WellFormed)
    (hd : v.forest.Directory d) (hgone : e.isDeleted = true)
    (hused : e.isEnd = false) :
    next.WellFormed ∧ ∀ other, Keeps v next other := by
  have hagrees := h.agrees hwell.toSound hd hgone hused
  have hsound := h.sound_of_deleted hwell.toSound hd hgone hused
  refine ⟨⟨hsound, hagrees.unique hwell.unique⟩, fun other => ?_⟩
  have hroot : next.rootCluster = v.rootCluster := hagrees.root
  have hlookup : next.lookup other = v.lookup other := by
    refine Volume.lookup_eq_of_follow hroot ?_
    rw [hroot]
    exact hagrees.follow_eq v.directory_root (shortNames other)
  exact h.keeps hwell.toSound hd (hwell.findFile_congr hsound hlookup)

section

variable {front : List (List UInt8)} (hwell : v.WellFormed)
  (hfront : v.forest.enter v.rootCluster front = some d)
  (hnew : v.forest.find d e.name = none)

include hwell hfront hnew

/-- A new chain whose entry has found its place. -/
theorem Takes.keeps_places
    (h : Takes v w first cs) (hadmits : w.Admits e)
    (hplaces : Places w next d e extra) :
    next.WellFormed ∧ ∀ other, ¬(front ++ [e.name]) <+: shortNames other →
      Keeps v next other := by
  have hinserts := hplaces.inserts
  cases hgone : e.isDeleted with
  | false =>
      obtain ⟨hnext, -, -, hkeeps⟩ :=
        h.enters hwell hfront hnew hadmits hgone hinserts
      exact ⟨hnext, hkeeps⟩
  | true =>
      have hd := Forest.directory_of_enter v.directory_root hfront
      have hwd := (h.sound hwell.toSound).2.directory_iff.2 hd
      obtain ⟨hnext, hkeeps⟩ := hinserts.keeps_of_deleted (h.wellFormed hwell)
        hwd hgone hadmits.used
      exact ⟨hnext, fun other _ => (h.keeps hwell.toSound other).trans
        (hkeeps other)⟩

end

section

variable {front : List (List UInt8)} (hwell : v.WellFormed)
  (hfront : v.forest.enter v.rootCluster front = some d)
  (hnew : v.forest.find d (filenameToFat32 name) = none) (hname : 0 ∉ name)

include hwell hfront hnew hname

theorem Writes.keeps (h : Writes v d name buffer size written next) :
    next.WellFormed ∧
      ∀ other, ¬(front ++ [filenameToFat32 name]) <+: shortNames other →
        Keeps v next other := by
  cases h with
  | full _ => exact ⟨hwell, fun other _ => Keeps.refl v other⟩
  | short _ _ hframe =>
      obtain ⟨hsound, hagrees⟩ := hwell.toSound.frame hframe
        (fun x hx => hwell.spare_of_free hx)
        fun x hx => absurd hx (Set.notMem_empty x)
      refine ⟨⟨hsound, hagrees.unique hwell.unique⟩, fun other _ => ?_⟩
      have hroot : next.rootCluster = v.rootCluster := hagrees.root
      have hlookup : next.lookup other = v.lookup other := by
        refine Volume.lookup_eq_of_follow hroot ?_
        rw [hroot]
        exact hagrees.follow_eq v.directory_root (shortNames other)
      refine hwell.toSound.keeps hframe (hwell.findFile_congr hsound hlookup)
        fun e d hfind hfile x hx => ?_
      obtain ⟨hd, he⟩ := hwell.mem_of_findFile hfind hfile
      exact ⟨fun hfree => hwell.spare_of_free hfree _
        (Forest.owned_of_mem hd he) hx, Set.notMem_empty x⟩
  | @stored w next first cs extra hstores _ _ hplaces =>
      have hentry := newEntry_name name 0x20 first size
      rw [← hentry] at hnew ⊢
      exact hstores.keeps_places hwell hfront hnew
        (hstores.admits_file hwell.toSound hname) hplaces
  | dropped hstores _ _ _ _ =>
      exact ⟨hstores.wellFormed hwell,
        fun other _ => hstores.toTakes.keeps hwell.toSound other⟩

theorem Makes.keeps (h : Makes v d name made next) :
    next.WellFormed ∧
      ∀ other, ¬(front ++ [filenameToFat32 name]) <+: shortNames other →
        Keeps v next other := by
  cases h with
  | full _ => exact ⟨hwell, fun other _ => Keeps.refl v other⟩
  | @stored w next cluster extra htakes hempty hclosed hplaces =>
      have hentry := newEntry_name name 0x10 cluster 0
      rw [← hentry] at hnew ⊢
      exact htakes.keeps_places hwell hfront hnew
        (htakes.admits_directory hwell.toSound hname hempty hclosed) hplaces
  | dropped htakes _ _ =>
      exact ⟨htakes.wellFormed hwell,
        fun other _ => htakes.keeps hwell.toSound other⟩

end

/-! ## One call -/

theorem Volume.find_eq_none_of_lookup
    (hname : fileName path ≠ []) (hnone : v.lookup path = none)
    (hfront : v.forest.enter v.rootCluster (parentNames path) = some d) :
    v.forest.find d (filenameToFat32 (fileName path)) = none := by
  cases hfind : v.forest.find d (filenameToFat32 (fileName path)) with
  | none => rfl
  | some e =>
      rw [(Volume.lookup_eq_some hname).2 ⟨hfront, hfind⟩] at hnone
      cases hnone

theorem Call.run_keeps
    (hwell : v.WellFormed) (hcursor : v.bpb.Has v.lastFreeCluster) (call : Call)
    (hpath : Named call.path) (hspares : call.Spares v) :
    ∃ next, call.run v = .ok next ∧ next.WellFormed ∧
      next.bpb.Has next.lastFreeCluster ∧
      ∀ other, ¬shortNames call.path <+: shortNames other →
        Keeps v next other := by
  cases call with
  | write path buffer size =>
      have hnamed : Named path := hpath
      have hdeletable : ∀ e y, v.lookup path = some (e, y) → v.Deletable e :=
        fun e y hlookup => hspares e y (by
          rw [hwell.findFile_eq hnamed.length, hlookup])
      rcases fat32WriteFile_cases hwell.toSound hcursor hnamed buffer size with
        ⟨-, hwrite⟩ | ⟨d, done, mid, written, next, hfront, -, hreleases, -, -,
          hwrite, hwrites⟩
      · exact ⟨v, by rw [run, hwrite]; rfl, hwell, hcursor,
          fun other _ => Keeps.refl v other⟩
      · have hmid := hreleases.wellFormed hwell hnamed
        have hmidcursor := hreleases.cursor hcursor
        obtain ⟨hnext, hkeeps⟩ := hwrites.keeps hmid
          (hreleases.parent hwell hnamed hfront)
          (hreleases.find_eq_none hwell hnamed hfront hdeletable)
          hnamed.text_name
        refine ⟨next, by rw [run, hwrite]; rfl, hnext, ?_, fun other hpast => ?_⟩
        · rw [hwrites.frame.bpb]
          exact hwrites.frame.cursor hmidcursor
        · refine (hreleases.keeps hwell hnamed hpast).trans (hkeeps other ?_)
          rw [← shortNames_eq hnamed.name]
          exact hpast
  | createDirectory path =>
      have hnamed : Named path := hpath
      rcases fat32CreateDirectory_cases hwell.toSound hcursor hnamed with
        ⟨-, hmake⟩ | ⟨-, hmake⟩ | ⟨d, made, next, hnone, hfront, hmake, hmakes⟩
      · exact ⟨v, by rw [run, hmake]; rfl, hwell, hcursor,
          fun other _ => Keeps.refl v other⟩
      · exact ⟨v, by rw [run, hmake]; rfl, hwell, hcursor,
          fun other _ => Keeps.refl v other⟩
      · obtain ⟨hnext, hkeeps⟩ := hmakes.keeps hwell hfront
          (Volume.find_eq_none_of_lookup hnamed.name hnone hfront)
          hnamed.text_name
        refine ⟨next, by rw [run, hmake]; rfl, hnext, ?_, fun other hpast => ?_⟩
        · rw [hmakes.frame.bpb]
          exact hmakes.frame.cursor hcursor
        · refine hkeeps other ?_
          rw [← shortNames_eq hnamed.name]
          exact hpast
  | delete path =>
      have hnamed : Named path := hpath
      obtain ⟨done, next, hdelete, hreleases⟩ :=
        fat32Delete_releases hwell.toSound hnamed
      exact ⟨next, by rw [run, hdelete]; rfl, hreleases.wellFormed hwell hnamed,
        hreleases.cursor hcursor,
        fun other hpast => hreleases.keeps hwell hnamed hpast⟩

/-! ## Runs -/

/-- A run of named calls on a sound volume returns, and every file and directory
still owns a chain of its own. -/
theorem runCalls_sound
    (h : v.Sound) (hcursor : v.bpb.Has v.lastFreeCluster) (calls : List Call)
    (hnamed : ∀ call ∈ calls, Named call.path) :
    ∃ next, runCalls calls v = .ok next ∧ next.bpb = v.bpb ∧ next.Sound := by
  obtain ⟨next, hrun, hsound, hbpb, -⟩ := @runCalls_keeps v
    (fun w => w.Sound ∧ w.bpb = v.bpb ∧ w.bpb.Has w.lastFreeCluster)
    (fun _ call => Named call.path)
    (fun w call hw hcall => by
      obtain ⟨hsound, hbpb, hplace⟩ := hw
      obtain ⟨next, hrun, hnext, hframe⟩ := call.run_ok hsound hplace hcall
      refine ⟨next, hrun, hnext, hframe.bpb.trans hbpb, ?_⟩
      rw [hframe.bpb]
      exact hframe.cursor hplace)
    calls (fun call hmem _ _ => hnamed call hmem) ⟨h, rfl, hcursor⟩
  exact ⟨next, hrun, hbpb, hsound⟩

section

variable (hwell : v.WellFormed) (hcursor : v.bpb.Has v.lastFreeCluster)
  (hnamed : ∀ call ∈ calls, Named call.path)
  (hspares : MeetsAlong (fun w call => call.Spares w) calls v)

include hwell hcursor hnamed hspares

theorem runCalls_keepsAlong
    (hpast : ∀ call ∈ calls, ¬shortNames call.path <+: shortNames other) :
    ∃ next, runCalls calls v = .ok next ∧ v.KeepsAlong next other := by
  refine runCalls_along (fun w call hmem hw hspare => ?_) hspares
    ⟨hwell, hcursor, Keeps.refl v other⟩
  obtain ⟨next, hrun, hnext, hplace, hkeeps⟩ :=
    call.run_keeps hw.wellFormed hw.cursor (hnamed call hmem) hspare
  exact ⟨next, hrun, hnext, hplace,
    hw.keeps.trans (hkeeps other (hpast call hmem))⟩

/-- A path past all targets leads to the same entry and the same bytes after the
run, whatever became of the calls. -/
theorem runCalls_keepOthers :
    ∃ next, runCalls calls v = .ok next ∧ ∀ other,
      (∀ call ∈ calls, ¬shortNames call.path <+: shortNames other) →
        Keeps v next other := by
  obtain ⟨next, hrun, -⟩ :=
    runCalls_sound hwell.toSound hcursor calls hnamed
  refine ⟨next, hrun, fun other hpast => ?_⟩
  obtain ⟨last, hlast, hkeeps⟩ :=
    runCalls_keepsAlong hwell hcursor hnamed hspares hpast
  rw [hrun, Except.ok.injEq] at hlast
  subst hlast
  exact hkeeps.keeps

/-- After the run no directory has two entries of one name, and every entry is
found by the names that lead to it. -/
theorem runCalls_unique :
    ∃ next, runCalls calls v = .ok next ∧
      ∀ d, next.forest.Directory d →
        ((next.entries d).map Entry.name).Nodup ∧
        ∃ front, ∀ e ∈ next.entries d, ∀ path,
          (dropSlash path).length < 256 →
          shortNames path = front ++ [e.name] →
            findFile next path = .ok (some (e, d)) := by
  obtain ⟨next, hrun, hnext, -⟩ := @runCalls_along v calls
    (fun w => w.WellFormed ∧ w.bpb.Has w.lastFreeCluster) _
    (fun w call hmem hw hspare => by
      obtain ⟨next, hrun, hnext, hplace, -⟩ :=
        call.run_keeps hw.1 hw.2 (hnamed call hmem) hspare
      exact ⟨next, hrun, hnext, hplace⟩) hspares ⟨hwell, hcursor⟩
  refine ⟨next, hrun, fun d hd => ⟨hnext.unique d hd, ?_⟩⟩
  obtain ⟨front, hfront⟩ := hnext.unique.exists_enter hd
  refine ⟨front, fun e he path hlength hnames => ?_⟩
  have hfind : next.forest.find d e.name = some e := hnext.unique.find hd he
  have hfollow : next.forest.follow next.rootCluster (shortNames path) =
      some (d, e) := by
    rw [hnames]
    exact Forest.follow_concat_eq_some.2 ⟨hfront, hfind⟩
  have hroot : components path ≠ [] := by
    intro hnil
    rw [shortNames_eq_nil_iff.2 hnil] at hnames
    simp at hnames
  rw [hnext.findFile_eq hlength]
  unfold Volume.lookup
  rw [if_neg hroot, hfollow]
  rfl

end

end

/-! ## A small volume -/

/-- The file `B` is written, the directory `C` is made and the file `A` deleted. -/
def threeCalls : List Call :=
  [.write [66] (fun _ => 7) 100, .createDirectory [67], .delete [65]]

theorem threeCalls_named : ∀ call ∈ threeCalls, Named call.path := by
  have hletter : ∀ c ∈ [65, 66, 67], Named [c] := by
    intro c hc
    simp only [List.mem_cons, List.not_mem_nil, or_false] at hc
    rcases hc with rfl | rfl | rfl <;> exact ⟨by decide, by decide, by decide⟩
  intro call hcall
  simp only [threeCalls, List.mem_cons, List.not_mem_nil, or_false] at hcall
  rcases hcall with rfl | rfl | rfl <;> exact hletter _ (by decide)

theorem threeCalls_spares :
    MeetsAlong (fun w call => call.Spares w) threeCalls oneFile := by
  refine ⟨fun e d hfind => ?_, fun _ _ => ⟨trivial, fun _ _ => ⟨trivial,
    fun _ _ => trivial⟩⟩⟩
  have hmissing : (findFile oneFile [66]).satisfies
      (fun found => found.isNone) = true := by
    decide +kernel
  rw [hfind] at hmissing
  cases hmissing

theorem runCalls_sound_oneFile :
    ∃ next, runCalls threeCalls oneFile = .ok next ∧
      next.bpb = oneFile.bpb ∧ next.Sound :=
  runCalls_sound oneFile_tidy.toSound oneFile_tidy.cursor threeCalls
    threeCalls_named

theorem runCalls_keepOthers_oneFile :
    ∃ next, runCalls threeCalls oneFile = .ok next ∧ ∀ other,
      (∀ call ∈ threeCalls, ¬shortNames call.path <+: shortNames other) →
        Keeps oneFile next other :=
  runCalls_keepOthers oneFile_tidy.toWellFormed oneFile_tidy.cursor
    threeCalls_named threeCalls_spares

theorem runCalls_unique_oneFile :
    ∃ next, runCalls threeCalls oneFile = .ok next ∧
      ∀ d, next.forest.Directory d →
        ((next.entries d).map Entry.name).Nodup ∧
        ∃ front, ∀ e ∈ next.entries d, ∀ path,
          (dropSlash path).length < 256 →
          shortNames path = front ++ [e.name] →
            findFile next path = .ok (some (e, d)) :=
  runCalls_unique oneFile_tidy.toWellFormed oneFile_tidy.cursor
    threeCalls_named threeCalls_spares

end ClOs.Fat32
