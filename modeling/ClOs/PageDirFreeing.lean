import ClOs.PageWalks

/-!
# Page directories that are given back

`vmm_free_page_dir` walks over the entries of a directory through its recursive
mapping and frees the frames of the pages and of the page tables that it finds.
It goes on behind the last entry of the user half.
-/

namespace ClOs.Memory

/-! ## `vmm_free_page_dir` -/

/-- The loop over the entries of a page table. -/
def freePages (x : ℕ) : ℕ → ℕ → Vm → Outcome Vm
  | 0, _, vm => .ok vm
  | count + 1, y, vm => do
      let pte ← readEntry vm x y
      let vm ← if pte % 2 = 1 then freeFrame (pte &&& pageFlagFrame) vm
        else pure vm
      freePages x count (y + 1) vm

/-- The loop over the entries of the directory, which is read at its own
address. -/
def freeTables (pd : ℕ) : ℕ → ℕ → Vm → Outcome Vm
  | 0, _, vm => .ok vm
  | count + 1, x, vm => do
      let pde := vm.word (staticFrame pd) x
      let vm ← if pde % 2 = 1 then do
          let vm ← freePages x 1024 0 vm
          freeFrame (pde &&& pageFlagFrame) vm
        else pure vm
      freeTables pd count (x + 1) vm

/-- The entry of `page_dirs` that is a directory. -/
def pageDirIndex (vm : Vm) (pd : ℕ) : Option ℕ :=
  (List.range numPageDirs).find? (fun i => vm.pageDirs i == pd)

def vmmFreePageDir (pd : ℕ) (vm : Vm) : Outcome Vm :=
  if pd = vm.initialPageDir then return vm
  else
    match pageDirIndex vm pd with
    | none => return vm
    | some i => do
        let oldPd := memGetCurrentPageDir vm
        let vm ← freeTables pd 786 0 (memChangePageDir vm pd)
        let vm ← freeFrame (sub32 pd kernelStart) (memChangePageDir vm oldPd)
        return { vm with
          pageDirsUsed := Function.update vm.pageDirsUsed i false }

/-! ## Frames that are freed one after another -/

def entryFrame (entry : ℕ) : ℕ := (entry &&& pageFlagFrame) / 0x1000

def freeAll (entries : List ℕ) (frames : Frames) : Outcome Frames :=
  entries.foldlM
    (fun frames entry => pmmFreePageFrame (entry &&& pageFlagFrame) frames)
    frames

/-- `pmm_free_page_frame` of the frame stays in the bitmap. -/
def Freeable (frames : Frames) (frame : ℕ) : Prop :=
  frame < frames.pageFrameMin ∨ frames.pageFrameMax < frame ∨
    frame < numPageFrames

structure Frees (frames next : Frames) (given : ℕ → Prop) : Prop where
  min : next.pageFrameMin = frames.pageFrameMin
  max : next.pageFrameMax = frames.pageFrameMax
  bits : ∀ frame, next.physicalMemoryBitmap.bit frame = true ↔
    frames.physicalMemoryBitmap.bit frame = true ∧
      ¬(given frame ∧ frames.pageFrameMin ≤ frame ∧
        frame ≤ frames.pageFrameMax)

theorem pmmFreePageFrame_ok_iff
    (address : ℕ) (frames : Frames) :
    (∃ next, pmmFreePageFrame address frames = .ok next) ↔
      Freeable frames (address / 0x1000) := by
  have hnum : numPageFrames = 65536 := by norm_num [numPageFrames]
  unfold pmmFreePageFrame Freeable
  simp only
  split_ifs with hrange hbound hset
  · exact ⟨fun _ => by omega, fun _ => ⟨_, rfl⟩⟩
  · refine ⟨?_, fun _ => by omega⟩
    rintro ⟨next, hok⟩
    cases hok
  · exact ⟨fun _ => by omega, fun _ => ⟨_, rfl⟩⟩
  · exact ⟨fun _ => by omega, fun _ => ⟨_, rfl⟩⟩

theorem pmmFreePageFrame_frees
    {address : ℕ} {frames next : Frames}
    (hok : pmmFreePageFrame address frames = .ok next) :
    Frees frames next (fun frame => frame = address / 0x1000) := by
  unfold pmmFreePageFrame at hok
  simp only at hok
  split_ifs at hok with hrange hbound hset
  · cases hok
    exact ⟨rfl, rfl, fun frame => by
      constructor
      · exact fun hbit => ⟨hbit, fun hgiven => by omega⟩
      · exact And.left⟩
  · cases hok
    refine ⟨rfl, rfl, fun frame => ?_⟩
    have hbits := freed_bit frames (address / 0x1000) frame
    unfold freed at hbits
    simp only at hbits
    rw [hbits]
    simp only [Bool.and_eq_true, Bool.not_eq_true', decide_eq_false_iff_not]
    constructor
    · exact fun ⟨hbit, hne⟩ => ⟨hbit, fun hgiven => hne hgiven.1⟩
    · exact fun ⟨hbit, hne⟩ => ⟨hbit, fun hsame => hne ⟨hsame, by omega, by omega⟩⟩
  · cases hok
    refine ⟨rfl, rfl, fun frame => ?_⟩
    constructor
    · intro hbit
      refine ⟨hbit, fun hgiven => ?_⟩
      rw [hgiven.1] at hbit
      exact hset hbit
    · exact And.left

theorem freeAll_cons
    {entry : ℕ} {entries : List ℕ} {frames next : Frames} :
    freeAll (entry :: entries) frames = .ok next ↔
      ∃ mid, pmmFreePageFrame (entry &&& pageFlagFrame) frames = .ok mid ∧
        freeAll entries mid = .ok next := by
  unfold freeAll
  rw [List.foldlM_cons, Outcome.bind_eq_ok]

theorem freeAll_frees
    {entries : List ℕ} {frames next : Frames}
    (hok : freeAll entries frames = .ok next) :
    Frees frames next (fun frame => ∃ entry ∈ entries,
      frame = entryFrame entry) := by
  induction entries generalizing frames with
  | nil =>
      cases hok
      exact ⟨rfl, rfl, by simp⟩
  | cons entry entries ih =>
      obtain ⟨mid, hfirst, hrest⟩ := freeAll_cons.1 hok
      have hone := pmmFreePageFrame_frees hfirst
      have hmore := ih hrest
      refine ⟨hmore.min.trans hone.min, hmore.max.trans hone.max, fun frame => ?_⟩
      rw [hmore.bits, hone.bits, hone.min, hone.max]
      simp only [List.mem_cons, exists_eq_or_imp]
      generalize (∃ other ∈ entries, frame = entryFrame other) = later
      have hframe : entryFrame entry = (entry &&& pageFlagFrame) / 0x1000 := rfl
      rw [← hframe]
      generalize (frame = entryFrame entry) = first
      tauto

/-- Frames of a list can be freed when each of them can. -/
theorem freeAll_ok_iff
    (entries : List ℕ) (frames : Frames) :
    (∃ next, freeAll entries frames = .ok next) ↔
      ∀ entry ∈ entries, Freeable frames (entryFrame entry) := by
  induction entries generalizing frames with
  | nil => exact ⟨fun _ => by simp, fun _ => ⟨frames, rfl⟩⟩
  | cons entry entries ih =>
      have hfirst := pmmFreePageFrame_ok_iff (entry &&& pageFlagFrame) frames
      have hsame : ∀ {mid}, pmmFreePageFrame (entry &&& pageFlagFrame) frames =
          .ok mid → ∀ frame, Freeable mid frame ↔ Freeable frames frame := by
        intro mid hmid frame
        have hone := pmmFreePageFrame_frees hmid
        unfold Freeable
        rw [hone.min, hone.max]
      rw [List.forall_mem_cons]
      constructor
      · rintro ⟨next, hok⟩
        obtain ⟨mid, hmid, hrest⟩ := freeAll_cons.1 hok
        refine ⟨hfirst.1 ⟨mid, hmid⟩, fun other hother => ?_⟩
        exact (hsame hmid _).1 ((ih mid).1 ⟨next, hrest⟩ other hother)
      · rintro ⟨hfreeable, hothers⟩
        obtain ⟨mid, hmid⟩ := hfirst.2 hfreeable
        obtain ⟨next, hrest⟩ := (ih mid).2 fun other hother =>
          (hsame hmid _).2 (hothers other hother)
        exact ⟨next, freeAll_cons.2 ⟨mid, hmid, hrest⟩⟩

theorem freeAll_append
    (first second : List ℕ) (frames : Frames) :
    freeAll (first ++ second) frames =
      (freeAll first frames >>= freeAll second) := by
  unfold freeAll
  rw [List.foldlM_append]

/-! ## The walk -/

/-- The entries of a page table that are present, from entry `y` on. -/
def presentEntries (word : ℕ → ℕ → ℕ) (table y count : ℕ) : List ℕ :=
  ((List.range' y count).map (word table)).filter (fun entry => entry % 2 = 1)

/-- The entries whose frames are freed for the entries of a directory from entry
`x` on: those of the page tables and then the entry itself. -/
def walkedEntries (word : ℕ → ℕ → ℕ) (dir x count : ℕ) : List ℕ :=
  (presentEntries word dir x count).flatMap fun pde =>
    presentEntries word (pde / 0x1000) 0 1024 ++ [pde]

section

variable {vm : Vm} {dir : ℕ}

theorem Window.withFrames (h : Window vm dir) (frames : Frames) :
    Window { vm with frames := frames } dir := ⟨h.outer, h.self⟩

theorem presentEntries_succ
    (word : ℕ → ℕ → ℕ) (table y count : ℕ) :
    presentEntries word table y (count + 1) =
      (if word table y % 2 = 1 then [word table y] else []) ++
        presentEntries word table (y + 1) count := by
  unfold presentEntries
  rw [List.range'_succ, List.map_cons, List.filter_cons]
  by_cases hpresent : word table y % 2 = 1
  · simp [hpresent]
  · simp [hpresent]

theorem Window.freePages (h : Window vm dir) {x table : ℕ}
    (htable : Points vm.word dir x table) (y count : ℕ) :
    Memory.freePages x count y vm = (do
      return { vm with
        frames := ← freeAll (presentEntries vm.word table y count)
          vm.frames }) := by
  induction count generalizing y vm with
  | zero => rfl
  | succ count ih =>
      rw [presentEntries_succ]
      unfold Memory.freePages
      rw [h.readTable htable]
      simp only [bind, Except.bind]
      by_cases hpresent : vm.word table y % 2 = 1
      · rw [if_pos hpresent, if_pos hpresent, List.singleton_append]
        unfold freeFrame
        cases hfree : pmmFreePageFrame (vm.word table y &&& pageFlagFrame)
            vm.frames with
        | error halt =>
            simp only [freeAll, List.foldlM_cons, bind, Except.bind, hfree]
        | ok frames =>
            have hrest := ih (h.withFrames frames) htable (y + 1)
            simp only [bind, Except.bind] at hrest
            simp only [bind, Except.bind, pure, Except.pure, freeAll,
              List.foldlM_cons, hfree] at hrest ⊢
            exact hrest
      · rw [if_neg hpresent, if_neg hpresent, List.nil_append]
        exact ih h htable (y + 1)

/-- The loop over the directory. -/
theorem Window.freeTables {pd : ℕ} (h : Window vm (staticFrame pd))
    (x count : ℕ) :
    Memory.freeTables pd count x vm = (do
      return { vm with
        frames := ← freeAll (walkedEntries vm.word (staticFrame pd) x count)
          vm.frames }) := by
  induction count generalizing x vm with
  | zero => rfl
  | succ count ih =>
      unfold walkedEntries Memory.freeTables
      rw [presentEntries_succ, List.flatMap_append]
      by_cases hpresent : vm.word (staticFrame pd) x % 2 = 1
      · have hpoints : Points vm.word (staticFrame pd) x
            (vm.word (staticFrame pd) x / 0x1000) := ⟨hpresent, rfl⟩
        rw [if_pos hpresent, if_pos hpresent, h.freePages hpoints]
        simp only [List.flatMap_singleton, List.append_assoc]
        rw [freeAll_append, List.singleton_append]
        cases hpages : freeAll (presentEntries vm.word
            (vm.word (staticFrame pd) x / 0x1000) 0 1024) vm.frames with
        | error halt => rfl
        | ok pages =>
            unfold freeFrame
            cases hfree : pmmFreePageFrame
                (vm.word (staticFrame pd) x &&& pageFlagFrame) pages with
            | error halt =>
                simp only [bind, Except.bind, pure, Except.pure, freeAll,
                  List.foldlM_cons, hfree]
            | ok frames =>
                have hrest := ih (h.withFrames frames) (x + 1)
                simp only [bind, Except.bind, pure, Except.pure] at hrest
                simp only [bind, Except.bind, pure, Except.pure, freeAll,
                  List.foldlM_cons, hfree] at hrest ⊢
                exact hrest
      · rw [if_neg hpresent, if_neg hpresent, List.flatMap_nil, List.nil_append]
        exact ih h (x + 1)

end

/-! ## What is freed -/

/-- A frame whose address is in an entry that the walk reads, for the entries of
the directory from `first` on and below `last`. -/
def Walked (word : ℕ → ℕ → ℕ) (dir first last frame : ℕ) : Prop :=
  ∃ x, first ≤ x ∧ x < last ∧ word dir x % 2 = 1 ∧
    (frame = entryFrame (word dir x) ∨
      ∃ y < 1024, word (word dir x / 0x1000) y % 2 = 1 ∧
        frame = entryFrame (word (word dir x / 0x1000) y))

/-- A page table of the user half of a directory or a frame that it maps. -/
def UserFrame (vm : Vm) (pageDir frame : ℕ) : Prop :=
  ∃ x < 768, ∃ table, Points vm.word (staticFrame pageDir) x table ∧
    (frame = table ∨ ∃ y < 1024, Points vm.word table y frame)

/-- A page table of the kernel half or of another directory, or a frame that it
maps. -/
def UsedElsewhere (vm : Vm) (live : List ℕ) (pageDir frame : ℕ) : Prop :=
  ∃ owner, Active vm live owner ∧ ∃ x < 1023,
    (owner ≠ pageDir ∨ 768 ≤ x) ∧ ∃ table, TableAt vm owner x table ∧
      (frame = table ∨ ∃ y < 1024, Points vm.word table y frame)

/-- The user half of a directory is given back and nothing else is. -/
structure FreesUserHalf (vm next : Vm) (live : List ℕ) (pageDir : ℕ) : Prop where
  frames : ∀ frame, next.frames.physicalMemoryBitmap.bit frame = true ↔
    vm.frames.physicalMemoryBitmap.bit frame = true ∧ ¬UserFrame vm pageDir frame
  elsewhere : ∀ frame, UsedElsewhere vm live pageDir frame →
    next.frames.physicalMemoryBitmap.bit frame =
      vm.frames.physicalMemoryBitmap.bit frame
  cr3 : next.cr3 = vm.cr3
  slot : ∃ i < numPageDirs, vm.pageDirs i = pageDir ∧
    next.pageDirsUsed = Function.update vm.pageDirsUsed i false
  available : (vmmNewPageDir next).1 ≠ 0

/-- The frames that the walk finds behind the user half are not allocated, or
they are freed as frames of the user half. -/
def SparesKernelHalf (vm : Vm) (pageDir : ℕ) : Prop :=
  ∀ frame, Walked vm.word (staticFrame pageDir) 768 786 frame →
    frame < vm.frames.pageFrameMin ∨ vm.frames.pageFrameMax < frame ∨
      frame < numPageFrames ∧
        (vm.frames.physicalMemoryBitmap.bit frame = true →
          UserFrame vm pageDir frame)

section

variable {vm next : Vm} {live : List ℕ} {pageDir current : ℕ}

theorem entryFrame_of_lt
    {entry : ℕ} (h : entry < 4294967296) : entryFrame entry = entry / 0x1000 :=
  frame_of_entry h

theorem mem_presentEntries
    {word : ℕ → ℕ → ℕ} {table first count entry : ℕ} :
    entry ∈ presentEntries word table first count ↔
      ∃ y, first ≤ y ∧ y < first + count ∧ word table y % 2 = 1 ∧
        entry = word table y := by
  unfold presentEntries
  simp only [List.mem_filter, List.mem_map, List.mem_range'_1,
    decide_eq_true_eq]
  constructor
  · rintro ⟨⟨y, ⟨hlow, hhigh⟩, rfl⟩, hpresent⟩
    exact ⟨y, hlow, hhigh, hpresent, rfl⟩
  · rintro ⟨y, hlow, hhigh, hpresent, rfl⟩
    exact ⟨⟨y, ⟨hlow, hhigh⟩, rfl⟩, hpresent⟩

theorem walked_iff
    {word : ℕ → ℕ → ℕ} {dir first count frame : ℕ} :
    (∃ entry ∈ walkedEntries word dir first count, frame = entryFrame entry) ↔
      Walked word dir first (first + count) frame := by
  unfold walkedEntries Walked
  simp only [List.mem_flatMap, List.mem_append, List.mem_singleton,
    mem_presentEntries]
  constructor
  · rintro ⟨entry, ⟨pde, ⟨x, hlow, hhigh, hpresent, rfl⟩,
      ⟨y, -, hy, hpage, rfl⟩ | rfl⟩, rfl⟩
    · exact ⟨x, hlow, hhigh, hpresent, .inr ⟨y, by omega, hpage, rfl⟩⟩
    · exact ⟨x, hlow, hhigh, hpresent, .inl rfl⟩
  · rintro ⟨x, hlow, hhigh, hpresent, rfl | ⟨y, hy, hpage, rfl⟩⟩
    · exact ⟨_, ⟨_, ⟨x, hlow, hhigh, hpresent, rfl⟩, .inr rfl⟩, rfl⟩
    · exact ⟨_, ⟨_, ⟨x, hlow, hhigh, hpresent, rfl⟩,
        .inl ⟨y, by omega, by omega, hpage, rfl⟩⟩, rfl⟩

theorem walked_split
    {word : ℕ → ℕ → ℕ} {dir frame : ℕ} :
    Walked word dir 0 786 frame ↔
      Walked word dir 0 768 frame ∨ Walked word dir 768 786 frame := by
  constructor
  · rintro ⟨x, -, hhigh, hfound⟩
    rcases Nat.lt_or_ge x 768 with huser | hkernel
    · exact .inl ⟨x, by omega, huser, hfound⟩
    · exact .inr ⟨x, hkernel, hhigh, hfound⟩
  · rintro (⟨x, hlow, hhigh, hfound⟩ | ⟨x, hlow, hhigh, hfound⟩)
    · exact ⟨x, hlow, by omega, hfound⟩
    · exact ⟨x, by omega, hhigh, hfound⟩

theorem Directories.pageDirIndex (h : Directories vm live)
    (hlive : pageDir ∈ live) :
    ∃ i < numPageDirs, vm.pageDirsUsed i = true ∧ vm.pageDirs i = pageDir ∧
      Memory.pageDirIndex vm pageDir = some i := by
  obtain ⟨i, hi, hused, hslot⟩ := h.slot pageDir hlive
  cases hfind : Memory.pageDirIndex vm pageDir with
  | none =>
      unfold Memory.pageDirIndex at hfind
      rw [List.find?_eq_none] at hfind
      exact absurd hslot (by simpa using hfind i (List.mem_range.2 hi))
  | some j =>
      unfold Memory.pageDirIndex at hfind
      have hj := List.mem_range.1 (List.mem_of_find?_eq_some hfind)
      have hsame : vm.pageDirs j = pageDir := by
        simpa using List.find?_some hfind
      obtain rfl := h.layout.slot_injective i hi j hj (hslot.trans hsame.symm)
      exact ⟨i, hi, hused, hslot, rfl⟩

theorem Directories.vmmFreePageDir_eq (h : Directories vm live)
    (hlive : pageDir ∈ live) (hactive : Active vm live current)
    (hself : Points vm.word (staticFrame pageDir) 1023 (staticFrame pageDir)) :
    ∃ i < numPageDirs, vm.pageDirs i = pageDir ∧
      vmmFreePageDir pageDir (memChangePageDir vm current) = (do
        return { memChangePageDir vm current with
          frames := ← freeAll
            (walkedEntries vm.word (staticFrame pageDir) 0 786) vm.frames
          pageDirsUsed := Function.update vm.pageDirsUsed i false }) := by
  obtain ⟨i, hi, hused, hslot, hindex⟩ := h.pageDirIndex hlive
  refine ⟨i, hi, hslot, ?_⟩
  have hstatic := h.static (.inr hlive)
  have hne : pageDir ≠ (memChangePageDir vm current).initialPageDir := by
    rw [← hslot]
    exact h.layout.apart i hi
  have hold : memGetCurrentPageDir (memChangePageDir vm current) = current :=
    memGetCurrentPageDir_change vm (h.layout.low _ (h.static hactive))
      (h.layout.high _ (h.static hactive))
  have hwindow : Window (memChangePageDir vm pageDir) (staticFrame pageDir) :=
    ⟨hself, hself⟩
  have hchange : memChangePageDir (memChangePageDir vm current) pageDir =
      memChangePageDir vm pageDir := rfl
  have hindex' : Memory.pageDirIndex (memChangePageDir vm current) pageDir =
      some i := hindex
  unfold vmmFreePageDir
  rw [if_neg hne, hindex']
  simp only [hold, hchange, hwindow.freeTables]
  have hword : (memChangePageDir vm pageDir).word = vm.word := rfl
  have hframes : (memChangePageDir vm pageDir).frames = vm.frames := rfl
  rw [hword, hframes]
  cases hfree : freeAll (walkedEntries vm.word (staticFrame pageDir) 0 786)
      vm.frames with
  | error halt => rfl
  | ok frames =>
      have hlt := h.layout.frame_lt _ (h.dirFrame (.inr hlive))
      have hstay : pmmFreePageFrame (sub32 pageDir kernelStart) frames =
          .ok frames := by
        unfold pmmFreePageFrame
        simp only
        rw [if_pos]
        left
        rw [(freeAll_frees hfree).min]
        exact hlt
      simp only [bind, Except.bind, pure, Except.pure, freeFrame,
        memChangePageDir, hstay]

end

/-! ## What the calls keep -/

/-- The only page of 4 MiB is the one of the kernel image. -/
def SmallEntries (vm : Vm) (live : List ℕ) : Prop :=
  ∀ pageDir, Active vm live pageDir → ∀ x < 1023, x ≠ 768 →
    NotLarge vm pageDir x

/-- Only frames of the range are allocated. -/
def InRange (frames : Frames) : Prop :=
  ∀ frame, frames.physicalMemoryBitmap.bit frame = true → Owned frames frame

section

variable {vm mid next : Vm} {live : List ℕ} {pageDir owner virtAddr : ℕ}

theorem SmallEntries.congr (h : SmallEntries vm live)
    (hinitial : mid.initialPageDir = vm.initialPageDir)
    (hrows : ∀ pageDir, Active vm live pageDir → ∀ x < 1023,
      mid.word (staticFrame pageDir) x = vm.word (staticFrame pageDir) x) :
    SmallEntries mid live := by
  intro pageDir hactive x hx hne
  have hold : Active vm live pageDir := by
    unfold Active at hactive ⊢
    rwa [hinitial] at hactive
  unfold NotLarge
  rw [hrows pageDir hold x hx]
  exact h pageDir hold x hx hne

theorem SmallEntries.copied (h : SmallEntries vm live)
    (hdirs : Directories vm live) {x : ℕ} (hx : x < 1023) (hne : x ≠ 768)
    {entry : ℕ}
    (hentry : entry = withoutOwner (vm.word (staticFrame vm.initialPageDir) x))
    (hpresent : entry % 2 = 1) : entry.testBit 7 = false := by
  rw [hentry, withoutOwner_small]
  refine h _ (.inl rfl) x hx hne ?_
  rwa [hentry, (withoutOwner_spec (hdirs.bounded _ (.inl rfl) x)).1] at hpresent

theorem SmallEntries.sync (h : SmallEntries vm live)
    (hdirs : Directories vm live) : SmallEntries (syncPageDirs vm) live := by
  intro pageDir hactive x hx hne hpresent
  rcases Nat.lt_or_ge x 768 with huser | hkernel
  · rw [syncPageDirs_user vm _ huser] at hpresent ⊢
    exact h pageDir hactive x hx hne hpresent
  · rcases hactive with rfl | hlive
    · have hsame := syncPageDirs_initial hdirs.layout x
      have hold := h _ (.inl rfl) x hx hne
      unfold NotLarge at hold
      rw [← hsame] at hold
      exact hold hpresent
    · obtain ⟨i, hi, hused, rfl⟩ := hdirs.slot pageDir hlive
      exact h.copied hdirs hx hne
        (syncPageDirs_slot vm hi hused hkernel (by omega)) hpresent

theorem SmallEntries.leave (h : SmallEntries vm live)
    (hdirs : Directories vm live) (pageDir : ℕ) :
    SmallEntries (leaveKernelHalf pageDir vm) live := by
  unfold leaveKernelHalf
  split_ifs
  · exact (h.sync hdirs).congr rfl fun _ _ _ _ => rfl
  · exact h

theorem SmallEntries.newPageDir
    {i : ℕ} (h : SmallEntries vm live) (hdirs : Directories vm live)
    (hi : i < numPageDirs) (hunused : vm.pageDirsUsed i = false) :
    SmallEntries (addPageDir vm i) (vm.pageDirs i :: live) := by
  have hne : ∀ {P}, Active vm live P →
      staticFrame P ≠ staticFrame (vm.pageDirs i) :=
    fun hP => hdirs.unused_ne hi hunused hP
  have hclaim : SmallEntries (claimPageDir vm i) live :=
    h.congr rfl fun P hP x _ => claimPageDir_word (hne hP) x
  have hold : SmallEntries (addPageDir vm i) live :=
    (hclaim.sync (hdirs.claim hi hunused)).congr rfl
      fun P hP x _ => addPageDir_other (hne hP) x
  intro pageDir hactive x hx hother
  rcases hactive with rfl | hlive
  · exact hold _ (.inl rfl) x hx hother
  · rcases List.mem_cons.1 hlive with rfl | hlive
    · intro hpresent
      have hrow := addPageDir_row hdirs.layout hi x
      rw [if_neg (by omega)] at hrow
      split_ifs at hrow with hhalf
      · exact h.copied hdirs hx hother hrow hpresent
      · rw [hrow] at hpresent
        cases hpresent
    · exact hold _ (.inr hlive) x hx hother

/-- A page table that is made is none of a page of 4 MiB. -/
theorem SmallEntries.map (h : SmallEntries vm live)
    (hdirs : Directories vm live) (howner : Active vm live owner)
    {pdIndex ptIndex flags entry : ℕ} (hpd : pdIndex < 1023)
    (hflags : flags.testBit 7 = false)
    (hmaps : MapsIn vm (staticFrame owner) pdIndex ptIndex (flags &&& 0x3FF)
      entry mid) : SmallEntries mid live := by
  have hedit := hdirs.map_edits howner hpd hmaps
  intro pageDir hactive x hx hne
  have hactive := hedit.statics.active.1 hactive
  unfold NotLarge
  by_cases hcell : pageDir = owner ∧ x = pdIndex
  · obtain ⟨rfl, rfl⟩ := hcell
    rcases hmaps.directory
      (fun target hpoints => (hdirs.table_ne howner hpd hpoints howner).symm)
      (fun address after halloc => (hdirs.fresh howner halloc).symm) with
      ⟨-, -, hsame⟩ | ⟨-, address, halloc, hvalue, -⟩
    · rw [hsame]
      exact h pageDir hactive x hx hne
    · rw [hvalue]
      refine fun _ => tableEntry_small ?_ hflags
      by_cases hzero : address = 0
      · rw [hzero]
      · exact (pmmAllocPageFrame_takes halloc hzero).aligned
  · rw [hedit.tableAt hdirs howner hactive hcell]
    exact h pageDir hactive x hx hne

/-- A page table that is removed leaves an entry that is absent. -/
theorem SmallEntries.unmap (h : SmallEntries vm live)
    (hdirs : Directories vm live) (howner : Active vm live owner)
    {pdIndex ptIndex : ℕ} {user : Prop} (hpd : pdIndex < 1023)
    (hunmaps : UnmapsIn vm (staticFrame owner) pdIndex ptIndex user mid) :
    SmallEntries mid live := by
  have hedit := hdirs.unmap_edits howner hpd hunmaps
  intro pageDir hactive x hx hne
  have hactive := hedit.statics.active.1 hactive
  unfold NotLarge
  by_cases hcell : pageDir = owner ∧ x = pdIndex
  · obtain ⟨rfl, rfl⟩ := hcell
    have hold := h pageDir hactive x hx hne
    cases hunmaps with
    | none hnone => exact hold
    | page htable hpage hfree =>
        have hother := hdirs.table_ne howner hpd htable howner
        dsimp only
        rw [setAt_of_ne _ _ (.inl hother.symm)]
        exact hold
    | table huser htable hpage hfree hempty hdrop =>
        dsimp only
        rw [setAt_same]
        exact fun hpresent => absurd hpresent (by norm_num)
  · rw [hedit.tableAt hdirs howner hactive hcell]
    exact h pageDir hactive x hx hne

theorem InRange.alloc
    {frames after : Frames} {address : ℕ} (h : InRange frames)
    (halloc : pmmAllocPageFrame frames = .ok (address, after)) :
    InRange after := by
  rcases pmmAllocFrom_spec halloc with
    ⟨-, rfl⟩ | ⟨taken, hlow, hhigh, hbound, -, -, rfl⟩
  · exact h
  · intro frame hbit
    by_cases hsame : taken = frame
    · subst hsame
      have hmax : taken < frames.pageFrameMax := by omega
      exact ⟨hlow, hmax, hbound, hbit⟩
    · have hold : frames.physicalMemoryBitmap.bit frame = true := by
        simpa [ByteStore.bit_setBit, hsame] using hbit
      obtain ⟨hlow, hhigh, hbound, -⟩ := h frame hold
      exact ⟨hlow, hhigh, hbound, hbit⟩

theorem InRange.frees
    {frames after : Frames} {given : ℕ → Prop} (h : InRange frames)
    (hfrees : Frees frames after given) : InRange after := by
  intro frame hbit
  obtain ⟨hlow, hhigh, hbound, -⟩ := h frame ((hfrees.bits frame).1 hbit).1
  refine ⟨?_, ?_, hbound, hbit⟩
  · rwa [hfrees.min]
  · rwa [hfrees.max]

theorem InRange.freePage
    {freed : Vm} {pte : ℕ} (h : InRange vm.frames)
    (hfree : freePage pte vm = .ok freed) : InRange freed.frames := by
  rcases freePage_frames hfree with hsame | hfree
  · rwa [hsame]
  · exact h.frees (pmmFreePageFrame_frees hfree)

theorem InRange.map
    {dir pdIndex ptIndex flags entry : ℕ} (h : InRange vm.frames)
    (hmaps : MapsIn vm dir pdIndex ptIndex flags entry mid) :
    InRange mid.frames := by
  cases hmaps with
  | present htable => exact h
  | absent habsent halloc => exact h.alloc halloc

theorem InRange.unmap
    {dir pdIndex ptIndex : ℕ} {user : Prop} (h : InRange vm.frames)
    (hunmaps : UnmapsIn vm dir pdIndex ptIndex user mid) :
    InRange mid.frames := by
  cases hunmaps with
  | none hnone => exact h
  | page htable hpage hfree =>
      have hfreed := h.freePage hfree
      exact hfreed
  | table huser htable hpage hfree hempty hdrop =>
      exact (h.freePage hfree).frees (pmmFreePageFrame_frees hdrop)

structure Kept (vm : Vm) (live : List ℕ) : Prop where
  apart : Apart vm live
  small : SmallEntries vm live
  range : InRange vm.frames

theorem Kept.change (h : Kept vm live) (pageDir : ℕ) :
    Kept (memChangePageDir vm pageDir) live :=
  ⟨h.apart.change pageDir, h.small.congr rfl fun _ _ _ _ => rfl, h.range⟩

theorem map_kept
    {phyAddr flags : ℕ} (h : Kept vm live)
    (hactive : Active vm live pageDir) (hbelow : virtAddr < 0xFFC00000)
    (hflags : flags.testBit 7 = false)
    (hok : memMapPage virtAddr phyAddr flags (memChangePageDir vm pageDir) =
      .ok next) : SmallEntries next live ∧ InRange next.frames := by
  have hstart : kernelStart = 3221225472 := rfl
  have hindex : virtAddr / 0x400000 < 1023 := by omega
  have hdirs := h.apart.directories
  rcases Nat.lt_or_ge virtAddr kernelStart with huser | hkernel
  · obtain ⟨owner, howner, -, hmaps⟩ := hdirs.map_user hactive huser hok
    have hchanged := h.change pageDir
    exact ⟨hchanged.small.map hchanged.apart.directories howner hindex hflags
      hmaps, hchanged.range.map hmaps⟩
  · obtain ⟨mapped, hmaps, rfl⟩ := hdirs.map_kernel hactive hkernel hbelow hok
    have hchanged := h.change vm.initialPageDir
    have hmapped := hchanged.small.map hchanged.apart.directories (.inl rfl)
      hindex hflags hmaps
    have hedit := hchanged.apart.directories.map_edits (.inl rfl) hindex hmaps
    rw [leaveKernelHalf_frames]
    exact ⟨hmapped.leave (hchanged.apart.directories.edit hedit hindex) pageDir,
      hchanged.range.map hmaps⟩

theorem unmap_kept
    (h : Kept vm live) (hactive : Active vm live pageDir)
    (hbelow : virtAddr < 0xFFC00000)
    (hok : memUnmapPage virtAddr (memChangePageDir vm pageDir) = .ok next) :
    SmallEntries next live ∧ InRange next.frames := by
  have hstart : kernelStart = 3221225472 := rfl
  have hindex : virtAddr / 0x400000 < 1023 := by omega
  have hdirs := h.apart.directories
  rcases Nat.lt_or_ge virtAddr kernelStart with huser | hkernel
  · obtain ⟨owner, howner, -, hunmaps⟩ := hdirs.unmap_user hactive huser hok
    have hchanged := h.change pageDir
    exact ⟨hchanged.small.unmap hchanged.apart.directories howner hindex hunmaps,
      hchanged.range.unmap hunmaps⟩
  · rcases hdirs.unmap_kernel hactive hkernel hbelow hok with
      ⟨-, rfl⟩ | ⟨table, unmapped, -, -, hunmaps, rfl⟩
    · exact ⟨(h.change pageDir).small, h.range⟩
    · have hchanged := h.change vm.initialPageDir
      have hunmapped := hchanged.small.unmap hchanged.apart.directories
        (.inl rfl) hindex hunmaps
      have hedit := hchanged.apart.directories.unmap_edits (.inl rfl) hindex
        hunmaps
      rw [leaveKernelHalf_frames]
      exact ⟨hunmapped.leave (hchanged.apart.directories.edit hedit hindex)
        pageDir, hchanged.range.unmap hunmaps⟩

theorem call_kept
    {result : ℕ} {call : VmmCall} (h : Kept vm live)
    (hactive : Active vm live pageDir)
    (hmay : MapsUnused vm live pageDir call)
    (hcall : call.run (memChangePageDir vm pageDir) = .ok (result, next)) :
    Kept next (if result = 0 then live else result :: live) := by
  have hapart := call_apart h.apart hactive hmay hcall
  have hchanged := h.change pageDir
  have hdirs := hchanged.apart.directories
  cases call with
  | allocFrame =>
      obtain ⟨rfl, address, frames, halloc, rfl⟩ :=
        VmmCall.run_allocFrame hcall
      exact ⟨hapart, hchanged.small.congr rfl fun _ _ _ _ => rfl,
        h.range.alloc halloc⟩
  | newPageDir =>
      rcases VmmCall.run_newPageDir hcall with
        ⟨rfl, rfl⟩ | ⟨i, hi, hunused, rfl, rfl⟩
      · exact hchanged
      · rw [if_neg (hdirs.layout.slot_ne_zero hi)] at hapart ⊢
        exact ⟨hapart, hchanged.small.newPageDir hdirs hi hunused, h.range⟩
  | map virtAddr phyAddr flags =>
      obtain ⟨rfl, hmap⟩ := VmmCall.run_map hcall
      obtain ⟨hbelow, -, -, hflags, -⟩ := hmay
      obtain ⟨hsmall, hrange⟩ := map_kept h hactive hbelow hflags.spec.2.1 hmap
      exact ⟨hapart, hsmall, hrange⟩
  | unmap virtAddr =>
      obtain ⟨rfl, hunmap⟩ := VmmCall.run_unmap hcall
      obtain ⟨hsmall, hrange⟩ := unmap_kept h hactive hmay.1 hunmap
      exact ⟨hapart, hsmall, hrange⟩

end

/-! ## Directories that are freed -/

section

variable {vm next : Vm} {live : List ℕ} {pageDir current frame : ℕ}

/-- The frames of the user half are allocated, and nothing else uses them. -/
theorem Kept.userFrame (h : Kept vm live) (hlive : pageDir ∈ live)
    (huser : UserFrame vm pageDir frame) :
    Owned vm.frames frame ∧ ¬UsedElsewhere vm live pageDir frame := by
  have hactive : Active vm live pageDir := .inr hlive
  obtain ⟨x, hx, table, hpoints, hframe⟩ := huser
  have hat : TableAt vm pageDir x table :=
    ⟨hpoints, h.small pageDir hactive x (by omega) (by omega) hpoints.1⟩
  have his : IsTable vm live table := ⟨pageDir, hactive, x, by omega, hat⟩
  have hother : ∀ {owner y}, Active vm live owner → y < 1023 →
      TableAt vm owner y table → owner = pageDir ∧ y < 768 := by
    intro owner y howner hy hat'
    obtain ⟨hsame, hdirs⟩ :=
      h.apart.unique pageDir hactive owner howner x (by omega) y hy table hat hat'
    exact ⟨(hdirs hx).symm, by omega⟩
  constructor
  · rcases hframe with rfl | ⟨y, hy, hpage⟩
    · exact h.range _ (h.apart.table _ his).2
    · exact h.range _ (h.apart.page frame ⟨table, his, y, hy, hpage⟩).2.1
  · rintro ⟨owner, howner, x', hx', helse, table', hat', hframe'⟩
    have his' : IsTable vm live table' := ⟨owner, howner, x', hx', hat'⟩
    have hsame : table ≠ table' := by
      rintro rfl
      obtain ⟨rfl, hlow⟩ := hother howner hx' hat'
      rcases helse with hne | hhigh
      · exact hne rfl
      · omega
    rcases hframe with rfl | ⟨y, hy, hpage⟩
    · rcases hframe' with rfl | ⟨y', hy', hpage'⟩
      · exact hsame rfl
      · exact (h.apart.page frame ⟨table', his', y', hy', hpage'⟩).2.2 his
    · have hnot := (h.apart.page frame ⟨table, his, y, hy, hpage⟩).2.2
      rcases hframe' with rfl | ⟨y', hy', hpage'⟩
      · exact hnot his'
      · exact hsame (h.apart.pages table his table' his' y hy y' hy' frame hpage
          hpage').1

/-- The walk over the user half finds its frames. -/
theorem Kept.walked_user (h : Kept vm live) (hlive : pageDir ∈ live) :
    Walked vm.word (staticFrame pageDir) 0 768 frame ↔
      UserFrame vm pageDir frame := by
  have hactive : Active vm live pageDir := .inr hlive
  have hdir : ∀ x, entryFrame (vm.word (staticFrame pageDir) x) =
      vm.word (staticFrame pageDir) x / 0x1000 :=
    fun x => entryFrame_of_lt (h.apart.directories.bounded pageDir hactive x)
  have htable : ∀ x < 768, vm.word (staticFrame pageDir) x % 2 = 1 →
      ∀ y < 1024, entryFrame
        (vm.word (vm.word (staticFrame pageDir) x / 0x1000) y) =
          vm.word (vm.word (staticFrame pageDir) x / 0x1000) y / 0x1000 := by
    intro x hx hpresent y hy
    refine entryFrame_of_lt (h.apart.bounded _ ?_ y hy)
    exact ⟨pageDir, hactive, x, by omega, ⟨hpresent, rfl⟩,
      h.small pageDir hactive x (by omega) (by omega) hpresent⟩
  constructor
  · rintro ⟨x, -, hx, hpresent, hframe | ⟨y, hy, hpage, hframe⟩⟩
    · exact ⟨x, hx, _, ⟨hpresent, rfl⟩, .inl (hframe.trans (hdir x))⟩
    · rw [htable x hx hpresent y hy] at hframe
      exact ⟨x, hx, _, ⟨hpresent, rfl⟩, .inr ⟨y, hy, hpage, hframe.symm⟩⟩
  · rintro ⟨x, hx, table, ⟨hpresent, rfl⟩, rfl | ⟨y, hy, hpage, rfl⟩⟩
    · exact ⟨x, by omega, hx, hpresent, .inl (hdir x).symm⟩
    · exact ⟨x, by omega, hx, hpresent,
        .inr ⟨y, hy, hpage, (htable x hx hpresent y hy).symm⟩⟩

/-- A directory with a slot that is not in use can be given out. -/
theorem vmmNewPageDir_available
    (h : Layout vm) {i : ℕ} (hi : i < numPageDirs)
    (hunused : vm.pageDirsUsed i = false) : (vmmNewPageDir vm).1 ≠ 0 := by
  cases hfind : unusedPageDir vm with
  | none =>
      unfold unusedPageDir at hfind
      rw [List.find?_eq_none] at hfind
      exact absurd hunused (by simpa using hfind i (List.mem_range.2 hi))
  | some j =>
      rw [vmmNewPageDir_some hfind]
      exact h.slot_ne_zero (unusedPageDir_spec hfind).1

theorem Kept.frees_iff (h : Kept vm live) (hlive : pageDir ∈ live)
    (hactive : Active vm live current)
    (hself : Points vm.word (staticFrame pageDir) 1023 (staticFrame pageDir)) :
    (∃ next, vmmFreePageDir pageDir (memChangePageDir vm current) = .ok next ∧
      FreesUserHalf (memChangePageDir vm current) next live pageDir) ↔
      SparesKernelHalf vm pageDir := by
  obtain ⟨i, hi, hslot, hrun⟩ :=
    h.apart.directories.vmmFreePageDir_eq hlive hactive hself
  have hwalked : ∀ frame, (∃ entry ∈ walkedEntries vm.word
      (staticFrame pageDir) 0 786, frame = entryFrame entry) ↔
      UserFrame vm pageDir frame ∨
        Walked vm.word (staticFrame pageDir) 768 786 frame := by
    intro frame
    rw [walked_iff, walked_split, h.walked_user hlive]
  have hok := freeAll_ok_iff
    (walkedEntries vm.word (staticFrame pageDir) 0 786) vm.frames
  rw [hrun]
  constructor
  · rintro ⟨next, hnext, hfrees⟩ frame hkernel
    rw [Outcome.bind_eq_ok] at hnext
    obtain ⟨frames, hfree, hnext⟩ := hnext
    cases hnext
    obtain ⟨entry, hentry, rfl⟩ := (hwalked frame).2 (.inr hkernel)
    have hfreeable := hok.1 ⟨frames, hfree⟩ entry hentry
    by_cases hrange : vm.frames.pageFrameMin ≤ entryFrame entry ∧
        entryFrame entry ≤ vm.frames.pageFrameMax
    · refine .inr (.inr ⟨?_, fun hbit => ?_⟩)
      · rcases hfreeable with hlow | hhigh | hbound
        · omega
        · omega
        · exact hbound
      · by_contra hnot
        have hset := (hfrees.frames (entryFrame entry)).2 ⟨hbit, hnot⟩
        exact (((freeAll_frees hfree).bits _).1 hset).2
          ⟨⟨entry, hentry, rfl⟩, hrange⟩
    · omega
  · intro hspares
    obtain ⟨frames, hfree⟩ := hok.2 fun entry hentry => by
      rcases (hwalked _).1 ⟨entry, hentry, rfl⟩ with huser | hkernel
      · exact .inr (.inr (h.userFrame hlive huser).1.bound)
      · rcases hspares _ hkernel with hlow | hhigh | ⟨hbound, -⟩
        · exact .inl hlow
        · exact .inr (.inl hhigh)
        · exact .inr (.inr hbound)
    have hfrees := freeAll_frees hfree
    have hbits : ∀ frame, frames.physicalMemoryBitmap.bit frame = true ↔
        vm.frames.physicalMemoryBitmap.bit frame = true ∧
          ¬UserFrame vm pageDir frame := by
      intro frame
      rw [hfrees.bits, hwalked]
      constructor
      · rintro ⟨hbit, hnot⟩
        refine ⟨hbit, fun huser => hnot ⟨.inl huser, ?_⟩⟩
        have howned := (h.userFrame hlive huser).1
        exact ⟨howned.low, howned.high.le⟩
      · rintro ⟨hbit, hnot⟩
        refine ⟨hbit, ?_⟩
        rintro ⟨huser | hkernel, hlow, hhigh⟩
        · exact hnot huser
        · rcases hspares frame hkernel with hless | hmore | ⟨-, huser⟩
          · omega
          · omega
          · exact hnot (huser hbit)
    rw [hfree]
    refine ⟨_, rfl, ⟨hbits, fun frame helse => ?_, rfl, ⟨i, hi, hslot, rfl⟩, ?_⟩⟩
    · rw [Bool.eq_iff_iff, hbits]
      constructor
      · exact And.left
      · exact fun hbit => ⟨hbit, fun huser => (h.userFrame hlive huser).2 helse⟩
    · refine vmmNewPageDir_available ?_ hi (by simp)
      have hstatics : SameStatics vm { memChangePageDir vm current with
          frames := frames
          pageDirsUsed := Function.update vm.pageDirsUsed i false } :=
        ⟨rfl, rfl, hfrees.min⟩
      exact hstatics.layout h.apart.directories.layout

/-- A directory that has been given back leaves the others as they were. -/
theorem Kept.freed (h : Kept vm live) (hlive : pageDir ∈ live)
    (hactive : Active vm live current)
    (hself : Points vm.word (staticFrame pageDir) 1023 (staticFrame pageDir))
    (hspares : SparesKernelHalf vm pageDir)
    (hfree : vmmFreePageDir pageDir (memChangePageDir vm current) = .ok next) :
    Kept next (live.filter (· ≠ pageDir)) := by
  obtain ⟨last, hlast, hfrees⟩ := (h.frees_iff hlive hactive hself).2 hspares
  obtain rfl : last = next := by
    rw [hlast] at hfree
    exact Except.ok.inj hfree
  obtain ⟨i, hi, hslot, hrun⟩ :=
    h.apart.directories.vmmFreePageDir_eq hlive hactive hself
  rw [hrun, Outcome.bind_eq_ok] at hlast
  obtain ⟨frames, hwalk, hlast⟩ := hlast
  cases hlast
  have hwalked := freeAll_frees hwalk
  have hdirs := h.apart.directories
  have hstatics : SameStatics vm { memChangePageDir vm current with
      frames := frames
      pageDirsUsed := Function.update vm.pageDirsUsed i false } :=
    ⟨rfl, rfl, hwalked.min⟩
  have hold : ∀ {P}, P = vm.initialPageDir ∨
      P ∈ live.filter (· ≠ pageDir) → Active vm live P ∧ P ≠ pageDir := by
    rintro P (rfl | hP)
    · refine ⟨.inl rfl, ?_⟩
      rw [← hslot]
      exact (hdirs.layout.apart i hi).symm
    · rw [List.mem_filter, decide_eq_true_eq] at hP
      exact ⟨.inr hP.1, hP.2⟩
  have helse : ∀ {P x table other}, P = vm.initialPageDir ∨
      P ∈ live.filter (· ≠ pageDir) → x < 1023 → TableAt vm P x table →
      (other = table ∨ ∃ y < 1024, Points vm.word table y other) →
      frames.physicalMemoryBitmap.bit other =
        vm.frames.physicalMemoryBitmap.bit other := by
    intro P x table other hP hx hat hframe
    obtain ⟨hPold, hne⟩ := hold hP
    exact hfrees.elsewhere other ⟨P, hPold, x, hx, .inl hne, table, hat, hframe⟩
  have his : ∀ {table}, (∃ P, (P = vm.initialPageDir ∨
      P ∈ live.filter (· ≠ pageDir)) ∧ ∃ x < 1023, TableAt vm P x table) →
      IsTable vm live table :=
    fun ⟨P, hP, hx⟩ => ⟨P, (hold hP).1, hx⟩
  exact {
    apart := {
      directories := {
        layout := hstatics.layout hdirs.layout
        bounded := fun P hP => hdirs.bounded P (hold hP).1
        slot := by
          intro P hP
          obtain ⟨hactive', hne⟩ := hold (.inr hP)
          obtain ⟨hlive', -⟩ := List.mem_filter.1 hP
          obtain ⟨j, hj, hused, hslot'⟩ := hdirs.slot P hlive'
          have hji : j ≠ i := by
            rintro rfl
            exact hne (hslot'.symm.trans hslot)
          exact ⟨j, hj, by simp [hji, hused], hslot'⟩
        initial_self := hdirs.initial_self
        self := fun P hP => hdirs.self P (List.mem_filter.1 hP).1
        tables := fun P hP x hx target hpoints hframe =>
          hdirs.tables P (hold hP).1 x hx target hpoints hframe }
      table := by
        rintro table ⟨P, hP, x, hx, hat⟩
        have hsame := helse hP hx hat (.inl rfl)
        obtain ⟨hlow, hbit⟩ := h.apart.table table ⟨P, (hold hP).1, x, hx, hat⟩
        refine ⟨?_, hsame.trans hbit⟩
        rwa [hwalked.min]
      bounded := fun table htable => h.apart.bounded table (his htable)
      kernel := fun P hP => h.apart.kernel P (hold hP).1
      unique := fun P hP Q hQ => h.apart.unique P (hold hP).1 Q (hold hQ).1
      page := by
        rintro frame ⟨table, ⟨P, hP, x, hx, hat⟩, y, hy, hpoints⟩
        have hsame := helse hP hx hat (.inr ⟨y, hy, hpoints⟩)
        obtain ⟨hlow, hbit, hnot⟩ := h.apart.page frame
          ⟨table, ⟨P, (hold hP).1, x, hx, hat⟩, y, hy, hpoints⟩
        refine ⟨?_, hsame.trans hbit, fun htable => hnot (his htable)⟩
        rwa [hwalked.min]
      pages := fun table htable other hother =>
        h.apart.pages table (his htable) other (his hother) }
    small := fun P hP => h.small P (hold hP).1
    range := h.range.frees hwalked }

end

/-! ## Runs -/

/-- The states that calls and directories given back reach.  Each of these maps
itself, and the walk spares the kernel half. -/
inductive DirectoryRun (boot : Vm) : List ℕ → Vm → Prop
  | boot : DirectoryRun boot [] boot
  | call {live : List ℕ} {vm next : Vm} {pageDir result : ℕ} {call : VmmCall}
      (hrun : DirectoryRun boot live vm)
      (hactive : Active vm live pageDir)
      (hmay : MapsUnused vm live pageDir call)
      (hcall : call.run (memChangePageDir vm pageDir) = .ok (result, next)) :
      DirectoryRun boot (if result = 0 then live else result :: live) next
  | free {live : List ℕ} {vm next : Vm} {pageDir current : ℕ}
      (hrun : DirectoryRun boot live vm)
      (hlive : pageDir ∈ live)
      (hactive : Active vm live current)
      (hself : Points vm.word (staticFrame pageDir) 1023 (staticFrame pageDir))
      (hspares : SparesKernelHalf vm pageDir)
      (hfree : vmmFreePageDir pageDir (memChangePageDir vm current) =
        .ok next) :
      DirectoryRun boot (live.filter (· ≠ pageDir)) next

section

variable {initialPageDir pageDirs kernelEnd memHigh pageDir current : ℕ}
  {memory : ℕ → ℕ → ℕ} {vm : Vm} {live : List ℕ}

theorem bootState_small
    (himage : KernelImage initialPageDir pageDirs kernelEnd) :
    SmallEntries (bootState initialPageDir pageDirs kernelEnd memHigh memory)
      [] := by
  intro pageDir hactive x hx hne hpresent
  have hinitial : pageDir = initialPageDir := hactive.resolve_right (by simp)
  rw [hinitial, bootState_initial himage, if_neg (by omega), if_neg hne]
    at hpresent
  cases hpresent

theorem bootState_range :
    InRange (bootState initialPageDir pageDirs kernelEnd memHigh memory).frames
    := by
  intro frame hbit
  have hclear : ByteStore.bit (fun _ => 0) frame = true := hbit
  simp [ByteStore.bit] at hclear

theorem DirectoryRun.kept
    (himage : KernelImage initialPageDir pageDirs kernelEnd)
    (hrun : DirectoryRun
      (bootState initialPageDir pageDirs kernelEnd memHigh memory) live vm) :
    Kept vm live := by
  induction hrun with
  | boot => exact ⟨bootState_apart himage, bootState_small himage, bootState_range⟩
  | call hrun hactive hmay hcall ih => exact call_kept ih hactive hmay hcall
  | free hrun hlive hactive hself hspares hfree ih =>
      exact ih.freed hlive hactive hself hspares hfree

/-- Giving back a directory that maps itself, after any calls. -/
theorem vmmFreePageDir_frees_iff
    (himage : KernelImage initialPageDir pageDirs kernelEnd)
    (hrun : DirectoryRun
      (bootState initialPageDir pageDirs kernelEnd memHigh memory) live vm)
    (hlive : pageDir ∈ live) (hactive : Active vm live current)
    (hself : Points vm.word (staticFrame pageDir) 1023 (staticFrame pageDir)) :
    (∃ next, vmmFreePageDir pageDir (memChangePageDir vm current) = .ok next ∧
      FreesUserHalf (memChangePageDir vm current) next live pageDir) ↔
      SparesKernelHalf vm pageDir :=
  (DirectoryRun.kept himage hrun).frees_iff hlive hactive hself

end

/-! ## A page of the kernel half -/

section

variable {vm : Vm} {live : List ℕ} {pageDir : ℕ}

/-- A page table behind the user half is freed with it. -/
theorem Kept.not_spares (h : Kept vm live) (hlive : pageDir ∈ live)
    {x : ℕ} (hlow : 768 ≤ x) (hhigh : x < 786)
    (hpresent : vm.word (staticFrame pageDir) x % 2 = 1)
    (hsmall : (vm.word (staticFrame pageDir) x).testBit 7 = false) :
    ¬SparesKernelHalf vm pageDir := by
  intro hspares
  have hat : TableAt vm pageDir x (vm.word (staticFrame pageDir) x / 0x1000) :=
    ⟨⟨hpresent, rfl⟩, hsmall⟩
  have howned := h.range _ (h.apart.table _ ⟨pageDir, .inr hlive, x, by omega,
    hat⟩).2
  have hframe := entryFrame_of_lt
    (h.apart.directories.bounded pageDir (.inr hlive) x)
  rcases hspares _ ⟨x, hlow, hhigh, hpresent, .inl hframe.symm⟩ with
    hless | hmore | ⟨-, huser⟩
  · have hmin := howned.low
    omega
  · have hmax := howned.high
    omega
  · exact (h.userFrame hlive (huser howned.set)).2
      ⟨pageDir, .inr hlive, x, by omega, .inr hlow, _, hat, .inl rfl⟩

theorem VmmRun.directoryRun
    {boot : Vm} (hrun : VmmRun MapsUnused boot live vm) :
    DirectoryRun boot live vm := by
  induction hrun with
  | boot => exact .boot
  | call hrun hactive hmay hcall ih => exact .call ih hactive hmay hcall

end

theorem kernelPage_directory :
    ∃ vm, VmmRun MapsUnused sampleBoot [0xC0201000] vm ∧
      Points vm.word (staticFrame 0xC0201000) 1023 (staticFrame 0xC0201000) ∧
      vm.word (staticFrame 0xC0201000) 769 % 2 = 1 := by
  obtain ⟨frames, halloc, hfree⟩ := firstDirectory_alloc
  have halloc : pmmAllocPageFrame sampleBoot.frames = .ok (0x301000, frames) :=
    halloc
  have hboot : Apart sampleBoot [] := bootState_apart kernelImage_sample
  have hunused := hboot.unused (pmmAllocPageFrame_takes halloc (by norm_num))
  have htaken := takeFrame (.boot : VmmRun MapsUnused sampleBoot [] sampleBoot)
    (.inl rfl) halloc
  generalize hstate : { memChangePageDir sampleBoot sampleBoot.initialPageDir with
    frames := frames } = taken at htaken
  have hword : taken.word = sampleBoot.word := by rw [← hstate]; rfl
  have hinitial : taken.initialPageDir = 0xC0101000 := by rw [← hstate]; rfl
  have hframes : taken.frames = frames := by rw [← hstate]
  have hslots : taken.pageDirs = sampleBoot.pageDirs := by rw [← hstate]; rfl
  have husedSlots : taken.pageDirsUsed = sampleBoot.pageDirsUsed := by
    rw [← hstate]
    rfl
  have hdirs := (VmmRun.apart kernelImage_sample htaken).directories
  have hentry : taken.word (staticFrame taken.initialPageDir) 769 = 0 := by
    rw [hword, hinitial]
    exact bootState_initial kernelImage_sample 769
  obtain ⟨address, after, hnext⟩ := hfree.alloc
  obtain ⟨next, hmap⟩ := hdirs.map_ok (.inl rfl)
    (by norm_num : 0xC0400000 < 0xFFC00000) (by rw [hframes]; exact hnext)
    0x301000 3
  have hmay : MapsUnused taken [] taken.initialPageDir
      (.map 0xC0400000 0x301000 3) := by
    refine ⟨by decide, by decide, ?_, ⟨pageFlagWrite, by simp, .inl rfl⟩, ?_⟩
    · rw [← hstate]
      exact hunused.change _
    · intro owner howner hself
      obtain rfl : owner = taken.initialPageDir := howner.resolve_right (by simp)
      have hzero : taken.word (staticFrame taken.initialPageDir)
          ((0xC0400000 : UInt32).toNat / 0x400000) = 0 := hentry
      refine ⟨fun hpresent => ?_, fun _ => ?_⟩
      · rw [hzero] at hpresent
        cases hpresent
      · rwa [hframes]
  have hmapped := htaken.map (.inl rfl) 0xC0400000 0x301000 3 hmay hmap
  obtain ⟨mid, hmaps, hleave⟩ := hdirs.map_kernel (.inl rfl)
    (by decide : kernelStart ≤ 0xC0400000) (by norm_num) hmap
  have hedit := (hdirs.change _).map_edits (.inl rfl) (by norm_num) hmaps
  have hkept : mid.initialPageDir = taken.initialPageDir :=
    hedit.statics.initialPageDir
  rw [leaveKernelHalf_initial hkept] at hleave
  subst hleave
  have hpresent : next.word (staticFrame next.initialPageDir) 769 % 2 = 1 := by
    have habsent : taken.word (staticFrame taken.initialPageDir) 769 % 2 = 0 := by
      rw [hentry]
    obtain ⟨table, hpoints⟩ := hmaps.makes habsent (by decide)
      fun _ _ halloc => hdirs.fresh (.inl rfl) halloc
    rw [hkept]
    exact hpoints.1
  have hlayout : Layout (memChangePageDir next next.initialPageDir) :=
    ((VmmRun.apart kernelImage_sample hmapped).change _).directories.layout
  have hfreeSlot : unusedPageDir (memChangePageDir next next.initialPageDir) =
      some 1 := by
    unfold unusedPageDir
    have hsame : (memChangePageDir next next.initialPageDir).pageDirsUsed =
        sampleBoot.pageDirsUsed := hedit.used.trans husedSlots
    rw [hsame]
    decide +kernel
  have hslot : next.pageDirs 1 = 0xC0201000 := by
    rw [hedit.statics.pageDirs]
    change taken.pageDirs 1 = _
    rw [hslots]
    rfl
  have hcall : VmmCall.run (memChangePageDir next next.initialPageDir)
      .newPageDir = .ok (0xC0201000,
        addPageDir (memChangePageDir next next.initialPageDir) 1) := by
    simp only [VmmCall.run, vmmNewPageDir_some hfreeSlot]
    rw [← hslot]
    rfl
  have hnew : MapsUnused next [] next.initialPageDir .newPageDir := trivial
  have hrun := VmmRun.call hmapped (.inl rfl) hnew hcall
  have hrow := addPageDir_row (i := 1) hlayout (by decide)
  have hnewSlot : (memChangePageDir next next.initialPageDir).pageDirs 1 =
      0xC0201000 := hslot
  rw [hnewSlot] at hrow
  refine ⟨_, hrun, ?_, ?_⟩
  · unfold Points
    rw [hrow, if_pos rfl]
    exact selfEntry_points
  · rw [hrow, if_neg (by norm_num), if_pos (by norm_num)]
    refine (withoutOwner_spec ?_).1.trans hpresent
    exact (VmmRun.apart kernelImage_sample hmapped).directories.bounded _
      (.inl rfl) 769

/-- The page table of the kernel page is freed with the first directory. -/
theorem vmmFreePageDir_freesKernel :
    ∃ vm, VmmRun MapsUnused sampleBoot [0xC0201000] vm ∧
      Points vm.word (staticFrame 0xC0201000) 1023 (staticFrame 0xC0201000) ∧
      ¬∃ next, vmmFreePageDir 0xC0201000
          (memChangePageDir vm vm.initialPageDir) = .ok next ∧
        FreesUserHalf (memChangePageDir vm vm.initialPageDir) next [0xC0201000]
          0xC0201000 := by
  obtain ⟨vm, hrun, hself, hpresent⟩ := kernelPage_directory
  have hkept := DirectoryRun.kept kernelImage_sample hrun.directoryRun
  have hlive : 0xC0201000 ∈ [0xC0201000] := List.mem_singleton.2 rfl
  refine ⟨vm, hrun, hself, fun hfrees => ?_⟩
  have hsmall := hkept.small _ (.inr hlive) 769 (by norm_num) (by norm_num)
    hpresent
  exact hkept.not_spares hlive (by norm_num) (by norm_num) hpresent hsmall
    ((hkept.frees_iff hlive (.inl rfl) hself).1 hfrees)

theorem syncPageDirs_notSlot
    (vm : Vm) {frame : ℕ}
    (hframe : ∀ i < numPageDirs, staticFrame (vm.pageDirs i) ≠ frame) (x : ℕ) :
    (syncPageDirs vm).word frame x = vm.word frame x := by
  simp only [syncPageDirs]
  rw [if_neg]
  rintro ⟨-, -, i, hi, -, hslot⟩
  exact hframe i hi hslot

/-- Nothing is written into a frame that holds no directory. -/
theorem bootState_other
    {initialPageDir pageDirs kernelEnd memHigh frame : ℕ}
    {memory : ℕ → ℕ → ℕ}
    (hframe : ¬IsDirFrame
      (bootState initialPageDir pageDirs kernelEnd memHigh memory) frame) :
    (bootState initialPageDir pageDirs kernelEnd memHigh memory).word frame =
      memory frame := by
  have hslot : ∀ i < numPageDirs, staticFrame
      ((bootVm initialPageDir pageDirs memory).pageDirs i) ≠ frame :=
    fun i hi hsame => hframe ⟨_, .inr ⟨i, hi, rfl⟩, hsame⟩
  have hinitial : frame ≠ staticFrame
      (bootVm initialPageDir pageDirs memory).initialPageDir :=
    fun hsame => hframe ⟨_, .inl rfl, hsame.symm⟩
  funext x
  simp only [bootState, initMemory]
  rw [Function.update_of_ne (hslot 0 (by decide)).symm,
    if_neg (not_exists.2 fun i hslots => hslot i hslots.1 hslots.2),
    Vm.setWord_eq, Vm.withWord_word, Vm.setWord_eq, Vm.withWord_word,
    setAt_of_ne _ _ (.inl hinitial), setAt_of_ne _ _ (.inl hinitial)]
  unfold bootVm at hinitial ⊢
  exact congrFun (Function.update_of_ne hinitial _ _) x

/-- Nothing has been written into the frames that hold no directory. -/
theorem firstDirectory_other
    {frame : ℕ} (hnot : ¬IsDirFrame sampleBoot frame) (x : ℕ) :
    (addPageDir sampleBoot 1).word frame x = 0 := by
  have hslot : ∀ i < numPageDirs, staticFrame (sampleBoot.pageDirs i) ≠ frame :=
    fun i hi hsame => hnot ⟨_, .inr ⟨i, hi, rfl⟩, hsame⟩
  have hsync : (syncPageDirs (claimPageDir sampleBoot 1)).word frame x =
      (claimPageDir sampleBoot 1).word frame x :=
    syncPageDirs_notSlot (claimPageDir sampleBoot 1) hslot x
  rw [addPageDir_other (hslot 1 (by decide)).symm, hsync,
    claimPageDir_word (hslot 1 (by decide)).symm]
  exact congrFun (bootState_other hnot) x

theorem firstDirectory_zero
    (x : ℕ) : (addPageDir sampleBoot 1).word 0 x = 0 :=
  firstDirectory_other (fun hframe =>
    absurd (sampleBoot_layout.frame_pos 0 hframe) (by norm_num)) x

/-- Behind the user half the walk finds the page of the kernel only, as long as the
entries there and the words of frame 0 are those of the first directory. -/
theorem spares_of_firstDirectory
    {vm : Vm} (hmin : 0 < vm.frames.pageFrameMin)
    (hrow : ∀ x, 768 ≤ x → x < 786 → vm.word (staticFrame 0xC0201000) x =
      (addPageDir sampleBoot 1).word (staticFrame 0xC0201000) x)
    (hzero : ∀ y, vm.word 0 y = (addPageDir sampleBoot 1).word 0 y) :
    SparesKernelHalf vm 0xC0201000 := by
  rintro frame ⟨x, hlow, hhigh, hpresent, hframe⟩
  have hentry : vm.word (staticFrame 0xC0201000) x =
      withoutOwner (if x = 768 then 0x83 else 0) := by
    have hslot := addPageDir_row (i := 1) sampleBoot_layout (by decide) x
    have hboot : sampleBoot.word (staticFrame sampleBoot.initialPageDir) x =
        if x = 1023 then selfEntry 0xC0101000 else if x = 768 then 0x83 else 0 :=
      bootState_initial kernelImage_sample x
    rw [if_neg (by omega), if_pos (by omega), hboot, if_neg (by omega)] at hslot
    exact (hrow x hlow hhigh).trans hslot
  rw [hentry] at hpresent hframe
  by_cases hkernel : x = 768
  · rw [if_pos hkernel] at hframe
    have hfirst : withoutOwner 0x83 / 0x1000 = 0 := by decide
    rw [hfirst] at hframe
    rcases hframe with rfl | ⟨y, -, hpage, -⟩
    · have hnamed : entryFrame (withoutOwner 0x83) = 0 := by decide
      exact .inl (hnamed ▸ hmin)
    · rw [hzero, firstDirectory_zero] at hpage
      cases hpage
  · rw [if_neg hkernel] at hpresent
    exact absurd hpresent (by decide)

theorem firstDirectory_mapped :
    ∃ vm, VmmRun MapsUnused sampleBoot [0xC0201000] vm ∧
      Points vm.word (staticFrame 0xC0201000) 1023 (staticFrame 0xC0201000) ∧
      UserFrame vm 0xC0201000 0x301 ∧ SparesKernelHalf vm 0xC0201000 := by
  obtain ⟨frames, halloc, hfree⟩ := firstDirectory_alloc
  have hrun := sampleBoot_newPageDir MapsUnused trivial
  have happart := VmmRun.apart kernelImage_sample hrun
  have hunused := happart.unused (pmmAllocPageFrame_takes halloc (by norm_num))
  have hactive : ∀ vm, Active vm [0xC0201000] 0xC0201000 :=
    fun _ => .inr (List.mem_singleton.2 rfl)
  have htaken := takeFrame hrun (hactive _) halloc
  generalize hstate : { memChangePageDir (addPageDir sampleBoot 1) 0xC0201000 with
    frames := frames } = taken at htaken
  have hword : taken.word = (addPageDir sampleBoot 1).word := by rw [← hstate]; rfl
  have hframes : taken.frames = frames := by rw [← hstate]
  have hdirs := (VmmRun.apart kernelImage_sample htaken).directories
  have hself : Points taken.word (staticFrame 0xC0201000) 1023
      (staticFrame 0xC0201000) := hword ▸ firstDirectory_self
  have hentry : taken.word (staticFrame 0xC0201000) 1 = 0 := by
    rw [hword, firstDirectory_user (by norm_num)]
  obtain ⟨address, after, hnext⟩ := hfree.alloc
  rw [← hframes] at hnext
  obtain ⟨next, hmap⟩ := hdirs.map_ok (hactive _)
    (by norm_num : 0x400000 < 0xFFC00000) hnext 0x301000 7
  have hmay : MapsUnused taken [0xC0201000] 0xC0201000
      (.map 0x400000 0x301000 7) := by
    refine ⟨by decide, by decide, ?_,
      ⟨pageFlagWrite ||| pageFlagUser, by simp, .inl rfl⟩, ?_⟩
    · rw [← hstate]
      exact hunused.change _
    · intro owner howner hpoints
      have hsame : staticFrame owner = staticFrame 0xC0201000 :=
        hpoints.2.symm.trans hself.2
      have hzero : taken.word (staticFrame owner)
          ((0x400000 : UInt32).toNat / 0x400000) = 0 := by
        rw [hsame]
        exact hentry
      refine ⟨fun hpresent => ?_, fun _ => ?_⟩
      · rw [hzero] at hpresent
        cases hpresent
      · rwa [hframes]
  have hmapped := htaken.map (hactive _) 0x400000 0x301000 7 hmay hmap
  obtain ⟨owner, howner, hpoints, hmaps⟩ :=
    hdirs.map_user (hactive _) (by decide) hmap
  have hsame : staticFrame owner = staticFrame 0xC0201000 :=
    hpoints.2.symm.trans hself.2
  rw [hsame] at hmaps
  have hedit := (hdirs.change 0xC0201000).map_edits (hactive _) (by decide) hmaps
  have hrows : ∀ x, x ≠ 1 → next.word (staticFrame 0xC0201000) x =
      (addPageDir sampleBoot 1).word (staticFrame 0xC0201000) x := by
    intro x hx
    rw [← hword]
    exact hedit.rows _ (hdirs.dirFrame (hactive _)) x fun hboth => hx hboth.2
  have hkept := DirectoryRun.kept kernelImage_sample hmapped.directoryRun
  have hmin : 0 < next.frames.pageFrameMin := hkept.apart.directories.min_pos
  have hloop : Points next.word (staticFrame 0xC0201000) 1023
      (staticFrame 0xC0201000) :=
    firstDirectory_self.congr (hrows 1023 (by norm_num))
  cases hmaps with
  | present hpresent =>
      have hset : taken.word (staticFrame 0xC0201000) 1 % 2 = 1 := hpresent.1
      rw [hentry] at hset
      cases hset
  | @absent table count frames' habsent halloc' =>
      have hdir := hdirs.fresh (hactive _) halloc'
      have htable := (newTable_points taken.word 1 (by decide : 7 &&& 0x3FF < 0x400)
        hdir).congr (setAt_of_ne (newTable taken.word (staticFrame 0xC0201000) 1
          table (7 &&& 0x3FF)) (0x301000 &&& pageFlagFrame ||| 7 &&& 0x3FF)
          (.inl hdir.symm) : setAt _ (table / 0x1000) 0 _ _ _ = _)
      have hsmall := hkept.small _ (hactive _) 1 (by norm_num) (by norm_num)
        htable.1
      have hlow := (hkept.apart.table (table / 0x1000)
        ⟨_, hactive _, 1, by norm_num, htable, hsmall⟩).1
      refine ⟨_, hmapped, hloop, ⟨1, by norm_num, table / 0x1000, htable,
        .inr ⟨0, by norm_num, ?_⟩⟩, spares_of_firstDirectory hmin
          (fun x hlow _ => hrows x (by omega)) fun y => ?_⟩
      · exact ⟨(congrArg (· % 2) (setAt_same _ _ _ _)).trans (by decide),
          (congrArg (· / 0x1000) (setAt_same _ _ _ _)).trans (by decide)⟩
      · have hfirst : 0 ≠ table / 0x1000 := Nat.ne_of_lt (hmin.trans_le hlow)
        have hother := hdirs.layout.frame_pos _ (hdirs.dirFrame (hactive taken))
        rw [← hword]
        refine (setAt_of_ne _ _ (.inl hfirst)).trans ?_
        unfold newTable
        rw [clearTable_of_ne _ _ hfirst]
        exact setAt_of_ne _ _ (.inl hother.ne)

/-- The page of the user half is given back with the first directory. -/
theorem vmmFreePageDir_frees_firstDirectory :
    ∃ vm next, VmmRun MapsUnused sampleBoot [0xC0201000] vm ∧
      UserFrame vm 0xC0201000 0x301 ∧
      vm.frames.physicalMemoryBitmap.bit 0x301 = true ∧
      vmmFreePageDir 0xC0201000 (memChangePageDir vm vm.initialPageDir) =
        .ok next ∧
      FreesUserHalf (memChangePageDir vm vm.initialPageDir) next [0xC0201000]
        0xC0201000 ∧
      next.frames.physicalMemoryBitmap.bit 0x301 = false := by
  obtain ⟨vm, hrun, hself, huser, hspares⟩ := firstDirectory_mapped
  have hlive : 0xC0201000 ∈ [0xC0201000] := List.mem_singleton.2 rfl
  have hkept := DirectoryRun.kept kernelImage_sample hrun.directoryRun
  obtain ⟨next, hfree, hfrees⟩ := (vmmFreePageDir_frees_iff kernelImage_sample
    hrun.directoryRun hlive (.inl rfl) hself).2 hspares
  refine ⟨vm, next, hrun, huser, (hkept.userFrame hlive huser).1.set, hfree,
    hfrees, ?_⟩
  rw [← Bool.not_eq_true, hfrees.frames]
  exact fun hboth => hboth.2 huser

end ClOs.Memory
