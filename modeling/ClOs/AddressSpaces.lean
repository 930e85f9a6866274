import ClOs.BootMemory
import ClOs.PageDirs

/-!
# Address spaces over whole runs

A run starts after `init_memory` and makes calls with `initial_page_dir` or a
directory that `vmm_new_page_dir` has returned in CR3.  The page directories are
static pages below every frame that can be allocated, so only the calls that
edit a directory change its words.
-/

namespace ClOs.Memory

/-! ## Runs -/

/-- The calls of a run.  `heap.c` and `elf.c` take the frames that they map with
`pmm_alloc_page_frame`. -/
inductive VmmCall
  | allocFrame
  | newPageDir
  | map (virtAddr phyAddr flags : UInt32)
  | unmap (virtAddr : UInt32)

/-- A call, with the directory that it returns or 0. -/
def VmmCall.run (vm : Vm) : VmmCall → Outcome (ℕ × Vm)
  | .allocFrame => do
      let (_, frames) ← pmmAllocPageFrame vm.frames
      return (0, { vm with frames := frames })
  | .newPageDir => return vmmNewPageDir vm
  | .map virtAddr phyAddr flags => do
      return (0, ← memMapPage virtAddr.toNat phyAddr.toNat flags.toNat vm)
  | .unmap virtAddr => do
      return (0, ← memUnmapPage virtAddr.toNat vm)

/-- The directories that can be in CR3. -/
def Active (vm : Vm) (live : List ℕ) (pageDir : ℕ) : Prop :=
  pageDir = vm.initialPageDir ∨ pageDir ∈ live

/-- The states that calls reach, with the directories returned so far.  Every
call that is made fulfils `may` in the state in which it is made. -/
inductive VmmRun (may : Vm → List ℕ → ℕ → VmmCall → Prop) (boot : Vm) :
    List ℕ → Vm → Prop
  | boot : VmmRun may boot [] boot
  | call {live : List ℕ} {vm next : Vm} {pageDir result : ℕ} {call : VmmCall}
      (hrun : VmmRun may boot live vm)
      (hactive : Active vm live pageDir)
      (hmay : may vm live pageDir call)
      (hcall : call.run (memChangePageDir vm pageDir) = .ok (result, next)) :
      VmmRun may boot (if result = 0 then live else result :: live) next

theorem VmmRun.map
    {may : Vm → List ℕ → ℕ → VmmCall → Prop} {boot vm next : Vm}
    {live : List ℕ} {pageDir : ℕ} (hrun : VmmRun may boot live vm)
    (hactive : Active vm live pageDir) (virtAddr phyAddr flags : UInt32)
    (hmay : may vm live pageDir (.map virtAddr phyAddr flags))
    (hmap : memMapPage virtAddr.toNat phyAddr.toNat flags.toNat
      (memChangePageDir vm pageDir) = .ok next) :
    VmmRun may boot live next := by
  have hcall : VmmCall.run (memChangePageDir vm pageDir)
      (.map virtAddr phyAddr flags) = .ok (0, next) := by
    simp only [VmmCall.run, hmap]
    rfl
  exact .call hrun hactive hmay hcall

/-! ## Static pages -/

/-- A page directory of the kernel image. -/
def IsStatic (vm : Vm) (pageDir : ℕ) : Prop :=
  pageDir = vm.initialPageDir ∨
    ∃ i < numPageDirs, vm.pageDirs i = pageDir

def IsDirFrame (vm : Vm) (frame : ℕ) : Prop :=
  ∃ pageDir, IsStatic vm pageDir ∧ staticFrame pageDir = frame

/-- The page directories are different pages of the kernel image, below the
frames that can be allocated. -/
structure Layout (vm : Vm) : Prop where
  aligned : ∀ pageDir, IsStatic vm pageDir → pageDir % 0x1000 = 0
  low : ∀ pageDir, IsStatic vm pageDir → kernelStart ≤ pageDir
  high : ∀ pageDir, IsStatic vm pageDir → pageDir < 4294967296
  frame_pos : ∀ frame, IsDirFrame vm frame → 0 < frame
  frame_lt : ∀ frame, IsDirFrame vm frame → frame < vm.frames.pageFrameMin
  injective : ∀ first second, IsStatic vm first → IsStatic vm second →
    staticFrame first = staticFrame second → first = second
  slot_injective : ∀ i < numPageDirs, ∀ j < numPageDirs,
    vm.pageDirs i = vm.pageDirs j → i = j
  apart : ∀ i < numPageDirs, vm.pageDirs i ≠ vm.initialPageDir

/-- A call never moves a page directory or the first frame. -/
structure SameStatics (vm next : Vm) : Prop where
  initialPageDir : next.initialPageDir = vm.initialPageDir
  pageDirs : next.pageDirs = vm.pageDirs
  pageFrameMin : next.frames.pageFrameMin = vm.frames.pageFrameMin

theorem SameStatics.refl (vm : Vm) : SameStatics vm vm := ⟨rfl, rfl, rfl⟩

theorem SameStatics.trans {vm mid next : Vm}
    (h : SameStatics vm mid) (h' : SameStatics mid next) :
    SameStatics vm next :=
  ⟨h'.initialPageDir.trans h.initialPageDir, h'.pageDirs.trans h.pageDirs,
    h'.pageFrameMin.trans h.pageFrameMin⟩

theorem SameStatics.isStatic {vm next : Vm} (h : SameStatics vm next)
    {pageDir : ℕ} : IsStatic next pageDir ↔ IsStatic vm pageDir := by
  unfold IsStatic
  rw [h.initialPageDir, h.pageDirs]

theorem SameStatics.isDirFrame {vm next : Vm} (h : SameStatics vm next)
    {frame : ℕ} : IsDirFrame next frame ↔ IsDirFrame vm frame := by
  unfold IsDirFrame
  simp only [h.isStatic]

theorem SameStatics.layout {vm next : Vm} (h : SameStatics vm next)
    (hlayout : Layout vm) : Layout next where
  aligned pageDir hp := hlayout.aligned pageDir (h.isStatic.1 hp)
  low pageDir hp := hlayout.low pageDir (h.isStatic.1 hp)
  high pageDir hp := hlayout.high pageDir (h.isStatic.1 hp)
  frame_pos frame hf := hlayout.frame_pos frame (h.isDirFrame.1 hf)
  frame_lt frame hf := by
    rw [h.pageFrameMin]
    exact hlayout.frame_lt frame (h.isDirFrame.1 hf)
  injective first second hfirst hsecond :=
    hlayout.injective first second (h.isStatic.1 hfirst)
      (h.isStatic.1 hsecond)
  slot_injective := by
    rw [h.pageDirs]
    exact hlayout.slot_injective
  apart := by
    rw [h.pageDirs, h.initialPageDir]
    exact hlayout.apart

/-! ## Frames that are allocated and freed -/

theorem pmmAllocPageFrame_cases
    {frames next : Frames} {address : ℕ}
    (halloc : pmmAllocPageFrame frames = .ok (address, next)) :
    next.pageFrameMin = frames.pageFrameMin ∧
      (address = 0 ∨ ∃ taken, frames.pageFrameMin ≤ taken ∧
        taken < frames.pageFrameMax ∧
        frames.physicalMemoryBitmap.bit taken = false ∧
        address = taken * 0x1000) := by
  rcases pmmAllocFrom_spec halloc with
    ⟨hnone, rfl⟩ | ⟨taken, hlow, hhigh, hbound, hclear, haddress, rfl⟩
  · exact ⟨rfl, .inl hnone⟩
  · have hnum : numPageFrames = 65536 := by norm_num [numPageFrames]
    rw [u32_of_lt (by omega)] at haddress
    exact ⟨rfl, .inr ⟨taken, hlow, by omega, hclear, haddress⟩⟩

theorem pmmAllocPageFrame_lt
    {frames next : Frames} {address : ℕ}
    (halloc : pmmAllocPageFrame frames = .ok (address, next)) :
    address < 4294967296 := by
  rcases pmmAllocFrom_spec halloc with
    ⟨rfl, -⟩ | ⟨taken, -, -, -, -, rfl, -⟩
  · norm_num
  · exact u32_lt _

theorem tableEntry_lt
    {address flags : ℕ} (haddress : address < 4294967296)
    (hflags : flags < 0x400) : tableEntry address flags < 4294967296 := by
  have hor : ∀ {a b : ℕ}, a < 2 ^ 32 → b < 2 ^ 32 → a ||| b < 2 ^ 32 :=
    fun ha hb => Nat.or_lt_two_pow ha hb
  exact hor (hor (hor haddress (by omega)) (by decide)) (by decide)

theorem pmmFreePageFrame_min
    {frames next : Frames} {address : ℕ}
    (hfree : pmmFreePageFrame address frames = .ok next) :
    next.pageFrameMin = frames.pageFrameMin := by
  unfold pmmFreePageFrame at hfree
  simp only at hfree
  split_ifs at hfree <;> cases hfree <;> rfl

theorem freePage_frames
    {vm freed : Vm} {pte : ℕ} (h : freePage pte vm = .ok freed) :
    freed.frames = vm.frames ∨
      pmmFreePageFrame (pte &&& pageFlagFrame) vm.frames =
        .ok freed.frames := by
  unfold freePage freeFrame at h
  split_ifs at h
  · rw [Outcome.bind_eq_ok] at h
    obtain ⟨frames, hfree, h⟩ := h
    simp only [pure, Except.pure, Except.ok.injEq] at h
    rw [← h]
    exact .inr hfree
  · rw [Except.ok.injEq] at h
    rw [← h]
    exact .inl rfl

theorem freePage_min
    {vm freed : Vm} {pte : ℕ} (h : freePage pte vm = .ok freed) :
    freed.frames.pageFrameMin = vm.frames.pageFrameMin := by
  rcases freePage_frames h with hsame | hfree
  · rw [hsame]
  · exact pmmFreePageFrame_min hfree

theorem Layout.allocated
    {vm : Vm} (h : Layout vm) {address : ℕ} {frames : Frames}
    (halloc : pmmAllocPageFrame vm.frames = .ok (address, frames)) :
    ¬IsDirFrame vm (address / 0x1000) := by
  intro hframe
  have hpos := h.frame_pos _ hframe
  have hlt := h.frame_lt _ hframe
  rcases (pmmAllocPageFrame_cases halloc).2 with
    rfl | ⟨taken, hlow, -, -, rfl⟩ <;> omega

/-! ## Directories -/

/-- What every call keeps.  Entry 1023 of a directory leads to the directory
itself or, after a copy, to `initial_page_dir`, and no other entry leads to a
page directory. -/
structure Directories (vm : Vm) (live : List ℕ) : Prop where
  layout : Layout vm
  bounded : ∀ pageDir, Active vm live pageDir → ∀ x,
    vm.word (staticFrame pageDir) x < 4294967296
  slot : ∀ pageDir ∈ live, ∃ i < numPageDirs,
    vm.pageDirsUsed i = true ∧ vm.pageDirs i = pageDir
  initial_self : Points vm.word (staticFrame vm.initialPageDir) 1023
    (staticFrame vm.initialPageDir)
  self : ∀ pageDir ∈ live,
    Points vm.word (staticFrame pageDir) 1023 (staticFrame pageDir) ∨
      Points vm.word (staticFrame pageDir) 1023
        (staticFrame vm.initialPageDir)
  tables : ∀ pageDir, Active vm live pageDir → ∀ x < 1023, ∀ target,
    Points vm.word (staticFrame pageDir) x target → ¬IsDirFrame vm target

/-- The words of the page directories change in one entry at most, and that
entry does not come to lead to a page directory. -/
structure EditsDir (vm mid : Vm) (dir pdIndex : ℕ) : Prop where
  statics : SameStatics vm mid
  used : mid.pageDirsUsed = vm.pageDirsUsed
  rows : ∀ frame, IsDirFrame vm frame → ∀ x,
    ¬(frame = dir ∧ x = pdIndex) → mid.word frame x = vm.word frame x
  entry : mid.word dir pdIndex = vm.word dir pdIndex ∨
    mid.word dir pdIndex < 4294967296 ∧
      ∀ target, Points mid.word dir pdIndex target → ¬IsDirFrame vm target

theorem MapsIn.editsDir
    {vm mid : Vm} {dir pdIndex ptIndex flags entry : ℕ}
    (hlayout : Layout vm) (hflags : flags < 0x400)
    (hdir : IsDirFrame vm dir)
    (htables : ∀ target, Points vm.word dir pdIndex target →
      ¬IsDirFrame vm target)
    (h : MapsIn vm dir pdIndex ptIndex flags entry mid) :
    EditsDir vm mid dir pdIndex := by
  cases h with
  | @present target count htable =>
      have hne : ∀ frame, IsDirFrame vm frame → frame ≠ target := by
        rintro frame hframe rfl
        exact htables _ htable hframe
      exact {
        statics := ⟨rfl, rfl, rfl⟩
        used := rfl
        rows := fun frame hframe x _ =>
          setAt_of_ne _ _ (.inl (hne frame hframe))
        entry := .inl (setAt_of_ne _ _ (.inl (hne dir hdir))) }
  | @absent address count frames habsent halloc =>
      have htarget := hlayout.allocated halloc
      have hne : ∀ frame, IsDirFrame vm frame →
          frame ≠ address / 0x1000 := by
        rintro frame hframe rfl
        exact htarget hframe
      have hword : ∀ frame, IsDirFrame vm frame → ∀ x,
          setAt (newTable vm.word dir pdIndex address flags)
              (address / 0x1000) ptIndex entry frame x =
            setAt vm.word dir pdIndex (tableEntry address flags) frame x := by
        intro frame hframe x
        rw [setAt_of_ne _ _ (.inl (hne frame hframe)), newTable,
          clearTable_of_ne _ _ (hne frame hframe)]
      exact {
        statics := ⟨rfl, rfl, (pmmAllocPageFrame_cases halloc).1⟩
        used := rfl
        rows := by
          intro frame hframe x hother
          refine (hword frame hframe x).trans (setAt_of_ne _ _ ?_)
          by_cases hsame : frame = dir
          · exact .inr (fun hx => hother ⟨hsame, hx⟩)
          · exact .inl hsame
        entry := by
          right
          have hvalue := hword dir hdir pdIndex
          rw [setAt_same] at hvalue
          refine ⟨?_, ?_⟩
          · simp only [hvalue]
            exact tableEntry_lt (pmmAllocPageFrame_lt halloc) hflags
          · intro target hpoints
            have hframe := hpoints.2
            simp only [hvalue] at hframe
            rw [tableEntry, (tableEntry_spec address hflags).2] at hframe
            rwa [← hframe] }

theorem UnmapsIn.editsDir
    {vm mid : Vm} {dir pdIndex ptIndex : ℕ} {user : Prop}
    (hdir : IsDirFrame vm dir)
    (htables : ∀ target, Points vm.word dir pdIndex target →
      ¬IsDirFrame vm target)
    (h : UnmapsIn vm dir pdIndex ptIndex user mid) :
    EditsDir vm mid dir pdIndex := by
  cases h with
  | none hnone => exact ⟨.refl vm, rfl, fun _ _ _ _ => rfl, .inl rfl⟩
  | @page target count freed htable hpage hfree =>
      have hmin := freePage_min hfree
      have hne : ∀ frame, IsDirFrame vm frame → frame ≠ target := by
        rintro frame hframe rfl
        exact htables _ htable hframe
      exact {
        statics := ⟨rfl, rfl, hmin⟩
        used := rfl
        rows := fun frame hframe x _ =>
          setAt_of_ne _ _ (.inl (hne frame hframe))
        entry := .inl (setAt_of_ne _ _ (.inl (hne dir hdir))) }
  | @table target count freed frames huser htable hpage hfree hempty hdrop =>
      have hmin := (pmmFreePageFrame_min hdrop).trans (freePage_min hfree)
      have hne : ∀ frame, IsDirFrame vm frame → frame ≠ target := by
        rintro frame hframe rfl
        exact htables _ htable hframe
      exact {
        statics := ⟨rfl, rfl, hmin⟩
        used := rfl
        rows := by
          intro frame hframe x hother
          have hentry : frame ≠ dir ∨ x ≠ pdIndex := by
            by_cases hsame : frame = dir
            · exact .inr (fun hx => hother ⟨hsame, hx⟩)
            · exact .inl hsame
          exact (setAt_of_ne _ _ hentry).trans
            (setAt_of_ne _ _ (.inl (hne frame hframe)))
        entry := by
          right
          refine ⟨by simp, ?_⟩
          intro target hpoints
          have hpresent := hpoints.1
          simp at hpresent }

section

variable {vm mid : Vm} {live : List ℕ} {dir pdIndex pageDir : ℕ}

theorem Directories.static (h : Directories vm live)
    (hactive : Active vm live pageDir) : IsStatic vm pageDir := by
  rcases hactive with rfl | hlive
  · exact .inl rfl
  · obtain ⟨i, hi, -, hslot⟩ := h.slot pageDir hlive
    exact .inr ⟨i, hi, hslot⟩

theorem Directories.dirFrame (h : Directories vm live)
    (hactive : Active vm live pageDir) :
    IsDirFrame vm (staticFrame pageDir) :=
  ⟨pageDir, h.static hactive, rfl⟩

theorem Directories.edit (h : Directories vm live)
    (hedit : EditsDir vm mid dir pdIndex) (hpd : pdIndex < 1023) :
    Directories mid live := by
  have hself : ∀ frame, IsDirFrame vm frame →
      mid.word frame 1023 = vm.word frame 1023 :=
    fun frame hframe => hedit.rows frame hframe 1023 (by omega)
  have hactive : ∀ pageDir, Active mid live pageDir →
      Active vm live pageDir := by
    intro pageDir hactive
    unfold Active at hactive ⊢
    rwa [hedit.statics.initialPageDir] at hactive
  exact {
    layout := hedit.statics.layout h.layout
    bounded := by
      intro pageDir hp x
      have hold := hactive pageDir hp
      by_cases hentry : staticFrame pageDir = dir ∧ x = pdIndex
      · obtain ⟨rfl, rfl⟩ := hentry
        rcases hedit.entry with hsame | hnew
        · rw [hsame]
          exact h.bounded pageDir hold x
        · exact hnew.1
      · rw [hedit.rows _ (h.dirFrame hold) x hentry]
        exact h.bounded pageDir hold x
    slot := by
      rw [hedit.used, hedit.statics.pageDirs]
      exact h.slot
    initial_self := by
      rw [hedit.statics.initialPageDir]
      exact h.initial_self.congr (hself _ (h.dirFrame (.inl rfl)))
    self := by
      intro pageDir hlive
      rw [hedit.statics.initialPageDir]
      have hsame := hself _ (h.dirFrame (.inr hlive))
      rcases h.self pageDir hlive with hown | hinitial
      · exact .inl (hown.congr hsame)
      · exact .inr (hinitial.congr hsame)
    tables := by
      intro pageDir hp x hx target hpoints
      rw [hedit.statics.isDirFrame]
      have hold := hactive pageDir hp
      by_cases hentry : staticFrame pageDir = dir ∧ x = pdIndex
      · obtain ⟨rfl, rfl⟩ := hentry
        rcases hedit.entry with hsame | hnew
        · exact h.tables pageDir hold x hx target (hpoints.congr hsame.symm)
        · exact hnew.2 target hpoints
      · exact h.tables pageDir hold x hx target (hpoints.congr
          (hedit.rows _ (h.dirFrame hold) x hentry).symm) }

/-- A step that keeps the words of the live directories. -/
theorem Directories.congr (h : Directories vm live)
    (hstatics : SameStatics vm mid)
    (hused : ∀ i, vm.pageDirsUsed i = true → mid.pageDirsUsed i = true)
    (hrows : ∀ pageDir, Active vm live pageDir → ∀ x,
      mid.word (staticFrame pageDir) x = vm.word (staticFrame pageDir) x) :
    Directories mid live where
  layout := hstatics.layout h.layout
  bounded pageDir hp x := by
    have hold : Active vm live pageDir := by
      unfold Active at hp ⊢
      rwa [hstatics.initialPageDir] at hp
    rw [hrows pageDir hold]
    exact h.bounded pageDir hold x
  slot pageDir hlive := by
    obtain ⟨i, hi, hin, hslot⟩ := h.slot pageDir hlive
    rw [hstatics.pageDirs]
    exact ⟨i, hi, hused i hin, hslot⟩
  initial_self := by
    rw [hstatics.initialPageDir]
    exact h.initial_self.congr (hrows _ (.inl rfl) _)
  self pageDir hlive := by
    rw [hstatics.initialPageDir]
    have hsame := hrows pageDir (.inr hlive) 1023
    rcases h.self pageDir hlive with hown | hinitial
    · exact .inl (hown.congr hsame)
    · exact .inr (hinitial.congr hsame)
  tables pageDir hp x hx target hpoints := by
    rw [hstatics.isDirFrame]
    have hold : Active vm live pageDir := by
      unfold Active at hp ⊢
      rwa [hstatics.initialPageDir] at hp
    exact h.tables pageDir hold x hx target
      (hpoints.congr (hrows pageDir hold x).symm)

theorem Directories.change (h : Directories vm live) (pageDir : ℕ) :
    Directories (memChangePageDir vm pageDir) live :=
  h.congr ⟨rfl, rfl, rfl⟩ (fun _ hin => hin) (fun _ _ _ => rfl)

theorem Directories.alloc (h : Directories vm live)
    {address : ℕ} {frames : Frames}
    (halloc : pmmAllocPageFrame vm.frames = .ok (address, frames)) :
    Directories { vm with frames := frames } live :=
  h.congr ⟨rfl, rfl, (pmmAllocPageFrame_cases halloc).1⟩ (fun _ hin => hin)
    (fun _ _ _ => rfl)

end

/-! ## Copies of the kernel half -/

def withoutOwner (entry : ℕ) : ℕ := entry &&& (0xFFFFFFFF - pageFlagOwner)

theorem withoutOwner_idem (entry : ℕ) :
    withoutOwner (withoutOwner entry) = withoutOwner entry := by
  unfold withoutOwner
  rw [Nat.and_assoc, Nat.and_self]

theorem withoutOwner_spec
    {entry : ℕ} (h : entry < 4294967296) :
    withoutOwner entry % 2 = entry % 2 ∧
      withoutOwner entry / 0x1000 = entry / 0x1000 := by
  unfold withoutOwner
  constructor
  · have hmod := Nat.and_mod_two_pow (a := entry)
      (b := 0xFFFFFFFF - pageFlagOwner) (n := 1)
    have hmask : (0xFFFFFFFF - pageFlagOwner) % 2 ^ 1 = 1 := by decide
    rw [hmask, Nat.and_one_is_mod] at hmod
    omega
  · have hdiv := Nat.and_div_two_pow (a := entry)
      (b := 0xFFFFFFFF - pageFlagOwner) (n := 12)
    have hmask : (0xFFFFFFFF - pageFlagOwner) / 2 ^ 12 = 2 ^ 20 - 1 := by
      decide
    rw [hmask, Nat.and_two_pow_sub_one_of_lt_two_pow (by omega)] at hdiv
    exact hdiv

theorem withoutOwner_lt
    {entry : ℕ} (h : entry < 4294967296) : withoutOwner entry < 4294967296 :=
  lt_of_le_of_lt Nat.and_le_left h

theorem Points.of_withoutOwner
    {word word' : ℕ → ℕ → ℕ} {frame frame' x target : ℕ}
    (hsource : word frame x < 4294967296)
    (hcopy : word' frame' x = withoutOwner (word frame x))
    (h : Points word' frame' x target) : Points word frame x target := by
  obtain ⟨hmod, hdiv⟩ := withoutOwner_spec hsource
  unfold Points at h ⊢
  rwa [hcopy, hmod, hdiv] at h

section

variable {vm : Vm} {live : List ℕ}

theorem Layout.slot_ne_zero (h : Layout vm)
    {i : ℕ} (hi : i < numPageDirs) : vm.pageDirs i ≠ 0 := by
  have hstart : kernelStart = 3221225472 := rfl
  have hlow := h.low _ (.inr ⟨i, hi, rfl⟩)
  omega

theorem Layout.slot_ne_initial (h : Layout vm)
    {i : ℕ} (hi : i < numPageDirs) :
    staticFrame (vm.pageDirs i) ≠ staticFrame vm.initialPageDir := by
  intro hframe
  exact h.apart i hi (h.injective _ _ (.inr ⟨i, hi, rfl⟩) (.inl rfl) hframe)

theorem syncPageDirs_slot
    (vm : Vm) {i x : ℕ} (hi : i < numPageDirs)
    (hused : vm.pageDirsUsed i = true)
    (hlow : 768 ≤ x) (hhigh : x < 1024) :
    (syncPageDirs vm).word (staticFrame (vm.pageDirs i)) x =
      withoutOwner (vm.word (staticFrame vm.initialPageDir) x) := by
  simp only [syncPageDirs]
  rw [if_pos ⟨hlow, hhigh, i, hi, hused, rfl⟩]
  rfl

theorem syncPageDirs_user
    (vm : Vm) (frame : ℕ) {x : ℕ} (hx : x < 768) :
    (syncPageDirs vm).word frame x = vm.word frame x := by
  simp only [syncPageDirs]
  rw [if_neg (by omega)]

theorem syncPageDirs_initial (h : Layout vm) (x : ℕ) :
    (syncPageDirs vm).word (staticFrame vm.initialPageDir) x =
      vm.word (staticFrame vm.initialPageDir) x := by
  simp only [syncPageDirs]
  rw [if_neg]
  rintro ⟨-, -, i, hi, -, hframe⟩
  exact h.slot_ne_initial hi hframe

theorem Directories.sync_self (h : Directories vm live)
    {pageDir : ℕ} (hlive : pageDir ∈ live) :
    Points (syncPageDirs vm).word (staticFrame pageDir) 1023
      (staticFrame vm.initialPageDir) := by
  obtain ⟨i, hi, hused, rfl⟩ := h.slot pageDir hlive
  obtain ⟨hmod, hdiv⟩ := withoutOwner_spec (h.bounded _ (.inl rfl) 1023)
  unfold Points
  rw [syncPageDirs_slot vm hi hused (by norm_num) (by norm_num), hmod, hdiv]
  exact h.initial_self

theorem Directories.sync (h : Directories vm live) :
    Directories (syncPageDirs vm) live where
  layout := by
    have hstatics : SameStatics vm (syncPageDirs vm) := ⟨rfl, rfl, rfl⟩
    exact hstatics.layout h.layout
  bounded pageDir hp x := by
    rcases hp with rfl | hlive
    · exact (syncPageDirs_initial h.layout x).trans_lt
        (h.bounded _ (.inl rfl) x)
    · obtain ⟨i, hi, hused, rfl⟩ := h.slot pageDir hlive
      by_cases hhalf : 768 ≤ x ∧ x < 1024
      · rw [syncPageDirs_slot vm hi hused hhalf.1 hhalf.2]
        exact withoutOwner_lt (h.bounded _ (.inl rfl) x)
      · have hsame : (syncPageDirs vm).word (staticFrame (vm.pageDirs i)) x =
            vm.word (staticFrame (vm.pageDirs i)) x := by
          simp only [syncPageDirs]
          rw [if_neg (by omega)]
        rw [hsame]
        exact h.bounded _ (.inr hlive) x
  slot := h.slot
  initial_self := h.initial_self.congr (syncPageDirs_initial h.layout 1023)
  self _ hlive := .inr (h.sync_self hlive)
  tables pageDir hp x hx target hpoints := by
    change ¬IsDirFrame vm target
    rcases hp with rfl | hlive
    · exact h.tables _ (.inl rfl) x hx target
        (hpoints.congr (syncPageDirs_initial h.layout x).symm)
    · obtain ⟨i, hi, hused, rfl⟩ := h.slot pageDir hlive
      rcases Nat.lt_or_ge x 768 with hlow | hhigh
      · exact h.tables _ (.inr hlive) x hx target
          (hpoints.congr (syncPageDirs_user vm _ hlow).symm)
      · exact h.tables _ (.inl rfl) x hx target
          (hpoints.of_withoutOwner (h.bounded _ (.inl rfl) x)
            (syncPageDirs_slot vm hi hused hhigh (by omega)))

theorem leaveKernelHalf_initial
    {pageDir : ℕ} (h : vm.initialPageDir = pageDir) :
    leaveKernelHalf pageDir vm = vm := by
  simp [leaveKernelHalf, h]

theorem Directories.leave (h : Directories vm live) (pageDir : ℕ) :
    Directories (leaveKernelHalf pageDir vm) live := by
  unfold leaveKernelHalf
  split_ifs
  · exact h.sync.change pageDir
  · exact h

end

/-! ## New directories -/

theorem unusedPageDir_spec
    {vm : Vm} {i : ℕ} (h : unusedPageDir vm = some i) :
    i < numPageDirs ∧ vm.pageDirsUsed i = false := by
  unfold unusedPageDir at h
  have hmem := List.mem_of_find?_eq_some h
  have htest := List.find?_some h
  exact ⟨List.mem_range.1 hmem, by simpa using htest⟩

theorem selfEntry_points
    {pageDir : ℕ} :
    selfEntry pageDir % 2 = 1 ∧
      selfEntry pageDir / 0x1000 = staticFrame pageDir := by
  unfold selfEntry
  constructor
  · have hbit : (sub32 pageDir kernelStart ||| pageFlagPresent |||
        pageFlagWrite).testBit 0 = true := by
      simp [pageFlagPresent]
    simpa only [Nat.testBit_zero, decide_eq_true_eq] using hbit
  · unfold pageFlagWrite pageFlagPresent staticFrame
    rw [entry_frame _ (by norm_num), entry_frame _ (by norm_num)]

theorem selfEntry_lt {pageDir : ℕ} : selfEntry pageDir < 4294967296 := by
  have hor : ∀ {a b : ℕ}, a < 2 ^ 32 → b < 2 ^ 32 → a ||| b < 2 ^ 32 :=
    fun ha hb => Nat.or_lt_two_pow ha hb
  have hsub : sub32 pageDir kernelStart < 2 ^ 32 := by
    unfold sub32
    exact u32_lt _
  exact hor (hor hsub (by decide)) (by decide)

/-- The directory that `vmm_new_page_dir` clears before the copy. -/
def claimPageDir (vm : Vm) (i : ℕ) : Vm :=
  { vm with
    pageDirsUsed := Function.update vm.pageDirsUsed i true
    word := Function.update vm.word (staticFrame (vm.pageDirs i))
      (fun _ => 0) }

/-- The state after `vmm_new_page_dir` has taken directory `i`. -/
def addPageDir (vm : Vm) (i : ℕ) : Vm :=
  (syncPageDirs (claimPageDir vm i)).setWord (staticFrame (vm.pageDirs i)) 1023
    (selfEntry (vm.pageDirs i))

section

variable {vm : Vm} {live : List ℕ} {i : ℕ}

theorem vmmNewPageDir_some (h : unusedPageDir vm = some i) :
    vmmNewPageDir vm = (vm.pageDirs i, addPageDir vm i) := by
  unfold vmmNewPageDir
  rw [h]
  rfl

theorem vmmNewPageDir_none (h : unusedPageDir vm = none) :
    vmmNewPageDir vm = (0, vm) := by
  unfold vmmNewPageDir
  rw [h]

theorem Directories.unused_ne (h : Directories vm live)
    (hi : i < numPageDirs) (hunused : vm.pageDirsUsed i = false)
    {pageDir : ℕ} (hactive : Active vm live pageDir) :
    staticFrame pageDir ≠ staticFrame (vm.pageDirs i) := by
  intro hframe
  rcases hactive with rfl | hlive
  · exact h.layout.slot_ne_initial hi hframe.symm
  · obtain ⟨j, hj, hused, rfl⟩ := h.slot pageDir hlive
    have hsame := h.layout.injective _ _ (.inr ⟨j, hj, rfl⟩)
      (.inr ⟨i, hi, rfl⟩) hframe
    rw [h.layout.slot_injective j hj i hi hsame, hunused] at hused
    cases hused

theorem Directories.claim (h : Directories vm live)
    (hi : i < numPageDirs) (hunused : vm.pageDirsUsed i = false) :
    Directories (claimPageDir vm i) live := by
  refine h.congr ⟨rfl, rfl, rfl⟩ ?_ ?_
  · intro j hused
    unfold claimPageDir
    by_cases hsame : j = i
    · rw [hsame]
      simp
    · simp [hsame, hused]
  · intro pageDir hactive x
    unfold claimPageDir
    simp [h.unused_ne hi hunused hactive]

theorem addPageDir_statics (vm : Vm) (i : ℕ) :
    SameStatics vm (addPageDir vm i) := ⟨rfl, rfl, rfl⟩

/-- The words of a new directory. -/
theorem addPageDir_row (h : Layout vm) (hi : i < numPageDirs) (x : ℕ) :
    (addPageDir vm i).word (staticFrame (vm.pageDirs i)) x =
      if x = 1023 then selfEntry (vm.pageDirs i)
      else if 768 ≤ x ∧ x < 1024 then
        withoutOwner (vm.word (staticFrame vm.initialPageDir) x)
      else 0 := by
  unfold addPageDir
  rw [Vm.setWord_eq, Vm.withWord_word]
  by_cases hself : x = 1023
  · rw [hself, setAt_same, if_pos rfl]
  · rw [setAt_of_ne _ _ (.inr hself), if_neg hself]
    have hzero : (claimPageDir vm i).word (staticFrame (vm.pageDirs i)) x =
        0 := by
      simp [claimPageDir]
    split_ifs with hhalf
    · have hcopy := syncPageDirs_slot (claimPageDir vm i) hi
        (by simp [claimPageDir]) hhalf.1 hhalf.2
      refine hcopy.trans ?_
      simp [claimPageDir, (h.slot_ne_initial hi).symm]
    · simp only [syncPageDirs]
      rw [if_neg (by omega)]
      exact hzero

/-- The words of the other directories are only copied over. -/
theorem addPageDir_other
    {frame : ℕ} (hframe : frame ≠ staticFrame (vm.pageDirs i)) (x : ℕ) :
    (addPageDir vm i).word frame x =
      (syncPageDirs (claimPageDir vm i)).word frame x :=
  setAt_of_ne _ _ (.inl hframe)

theorem addPageDir_initial (h : Layout vm) (hi : i < numPageDirs) (x : ℕ) :
    (addPageDir vm i).word (staticFrame vm.initialPageDir) x =
      vm.word (staticFrame vm.initialPageDir) x := by
  have hne := (h.slot_ne_initial hi).symm
  have hlayout : Layout (claimPageDir vm i) := by
    have hstatics : SameStatics vm (claimPageDir vm i) := ⟨rfl, rfl, rfl⟩
    exact hstatics.layout h
  rw [addPageDir_other hne]
  refine (syncPageDirs_initial hlayout x).trans ?_
  simp [claimPageDir, hne]

/-- A new directory has no page tables of its own. -/
theorem addPageDir_points (h : Directories vm live) (hi : i < numPageDirs)
    {x target : ℕ} (hx : x < 1023)
    (hpoints : Points (addPageDir vm i).word (staticFrame (vm.pageDirs i)) x
      target) :
    768 ≤ x ∧ Points vm.word (staticFrame vm.initialPageDir) x target := by
  have hrow := addPageDir_row h.layout hi x
  rw [if_neg (by omega)] at hrow
  split_ifs at hrow with hhalf
  · exact ⟨hhalf.1, hpoints.of_withoutOwner (h.bounded _ (.inl rfl) x) hrow⟩
  · have hpresent := hpoints.1
    rw [hrow] at hpresent
    cases hpresent

theorem Directories.newPageDir (h : Directories vm live)
    (hi : i < numPageDirs) (hunused : vm.pageDirsUsed i = false) :
    Directories (addPageDir vm i) (vm.pageDirs i :: live) := by
  have hsync := (h.claim hi hunused).sync
  have hold : Directories (addPageDir vm i) live := by
    refine hsync.congr ⟨rfl, rfl, rfl⟩ (fun _ hin => hin) ?_
    intro pageDir hactive x
    exact addPageDir_other (h.unused_ne hi hunused hactive) x
  exact {
    layout := hold.layout
    bounded := by
      intro pageDir hp x
      rcases hp with rfl | hlive
      · exact hold.bounded _ (.inl rfl) x
      · rcases List.mem_cons.1 hlive with rfl | hlive
        · rw [addPageDir_row h.layout hi]
          split_ifs
          · exact selfEntry_lt
          · exact withoutOwner_lt (h.bounded _ (.inl rfl) x)
          · norm_num
        · exact hold.bounded _ (.inr hlive) x
    slot := by
      intro pageDir hlive
      rcases List.mem_cons.1 hlive with rfl | hlive
      · exact ⟨i, hi, by simp [addPageDir, claimPageDir, Vm.setWord,
          syncPageDirs], rfl⟩
      · exact hold.slot pageDir hlive
    initial_self := hold.initial_self
    self := by
      intro pageDir hlive
      rcases List.mem_cons.1 hlive with rfl | hlive
      · left
        unfold Points
        rw [addPageDir_row h.layout hi, if_pos rfl]
        exact selfEntry_points
      · exact hold.self pageDir hlive
    tables := by
      intro pageDir hp x hx target hpoints
      rcases hp with rfl | hlive
      · exact hold.tables _ (.inl rfl) x hx target hpoints
      · rcases List.mem_cons.1 hlive with rfl | hlive
        · obtain ⟨-, hsource⟩ := addPageDir_points h hi hx hpoints
          rw [(addPageDir_statics vm i).isDirFrame]
          exact h.tables _ (.inl rfl) x hx target hsource
        · exact hold.tables _ (.inr hlive) x hx target hpoints }

end

/-! ## Calls -/

theorem VmmCall.run_allocFrame
    {vm next : Vm} {result : ℕ}
    (h : VmmCall.run vm .allocFrame = .ok (result, next)) :
    result = 0 ∧ ∃ address frames,
      pmmAllocPageFrame vm.frames = .ok (address, frames) ∧
        next = { vm with frames := frames } := by
  simp only [VmmCall.run] at h
  rw [Outcome.bind_eq_ok] at h
  obtain ⟨⟨address, frames⟩, halloc, h⟩ := h
  simp only [pure, Except.pure, Except.ok.injEq, Prod.mk.injEq] at h
  exact ⟨h.1.symm, address, frames, halloc, h.2.symm⟩

theorem VmmCall.run_newPageDir
    {vm next : Vm} {result : ℕ}
    (h : VmmCall.run vm .newPageDir = .ok (result, next)) :
    (result = 0 ∧ next = vm) ∨ ∃ i < numPageDirs,
      vm.pageDirsUsed i = false ∧ result = vm.pageDirs i ∧
        next = addPageDir vm i := by
  simp only [VmmCall.run, pure, Except.pure, Except.ok.injEq] at h
  cases hunused : unusedPageDir vm with
  | none =>
      rw [vmmNewPageDir_none hunused, Prod.mk.injEq] at h
      exact .inl ⟨h.1.symm, h.2.symm⟩
  | some i =>
      obtain ⟨hi, hfree⟩ := unusedPageDir_spec hunused
      rw [vmmNewPageDir_some hunused, Prod.mk.injEq] at h
      exact .inr ⟨i, hi, hfree, h.1.symm, h.2.symm⟩

theorem VmmCall.run_map
    {vm next : Vm} {result : ℕ} {virtAddr phyAddr flags : UInt32}
    (h : VmmCall.run vm (.map virtAddr phyAddr flags) = .ok (result, next)) :
    result = 0 ∧ memMapPage virtAddr.toNat phyAddr.toNat flags.toNat vm =
      .ok next := by
  simp only [VmmCall.run] at h
  rw [Outcome.bind_eq_ok] at h
  obtain ⟨mapped, hmap, h⟩ := h
  simp only [pure, Except.pure, Except.ok.injEq, Prod.mk.injEq] at h
  obtain ⟨rfl, rfl⟩ := h
  exact ⟨rfl, hmap⟩

theorem VmmCall.run_unmap
    {vm next : Vm} {result : ℕ} {virtAddr : UInt32}
    (h : VmmCall.run vm (.unmap virtAddr) = .ok (result, next)) :
    result = 0 ∧ memUnmapPage virtAddr.toNat vm = .ok next := by
  simp only [VmmCall.run] at h
  rw [Outcome.bind_eq_ok] at h
  obtain ⟨unmapped, hunmap, h⟩ := h
  simp only [pure, Except.pure, Except.ok.injEq, Prod.mk.injEq] at h
  obtain ⟨rfl, rfl⟩ := h
  exact ⟨rfl, hunmap⟩

section

variable {vm next : Vm} {live : List ℕ} {pageDir virtAddr : ℕ}

/-- The recursive mapping of an active directory shows the directory itself or
`initial_page_dir`. -/
theorem Directories.window (h : Directories vm live)
    (hactive : Active vm live pageDir) :
    ∃ owner, Active vm live owner ∧
      Points vm.word (staticFrame pageDir) 1023 (staticFrame owner) ∧
      Window (memChangePageDir vm pageDir) (staticFrame owner) := by
  rcases hactive with rfl | hlive
  · exact ⟨_, .inl rfl, h.initial_self, h.initial_self, h.initial_self⟩
  · rcases h.self pageDir hlive with hown | hinitial
    · exact ⟨pageDir, .inr hlive, hown, hown, hown⟩
    · exact ⟨_, .inl rfl, hinitial, hinitial, h.initial_self⟩

theorem Directories.fresh (h : Directories vm live)
    (hactive : Active vm live pageDir) {address : ℕ} {frames : Frames}
    (halloc : pmmAllocPageFrame vm.frames = .ok (address, frames)) :
    address / 0x1000 ≠ staticFrame pageDir := by
  intro hframe
  apply h.layout.allocated halloc
  rw [hframe]
  exact h.dirFrame hactive

theorem Directories.table_ne (h : Directories vm live)
    {owner x target : ℕ} (howner : Active vm live owner) (hx : x < 1023)
    (htable : Points vm.word (staticFrame owner) x target)
    (hactive : Active vm live pageDir) : target ≠ staticFrame pageDir := by
  rintro rfl
  exact h.tables owner howner x hx _ htable (h.dirFrame hactive)

theorem Directories.map_user (h : Directories vm live)
    (hactive : Active vm live pageDir) (huser : virtAddr < kernelStart)
    {phyAddr flags : ℕ}
    (hok : memMapPage virtAddr phyAddr flags (memChangePageDir vm pageDir) =
      .ok next) :
    ∃ owner, Active vm live owner ∧
      Points vm.word (staticFrame pageDir) 1023 (staticFrame owner) ∧
      MapsIn (memChangePageDir vm pageDir) (staticFrame owner)
        (virtAddr / 0x400000) (virtAddr / 0x1000 % 0x400) (flags &&& 0x3FF)
        ((phyAddr &&& pageFlagFrame) ||| (flags &&& 0x3FF)) next := by
  obtain ⟨owner, howner, hself, hwindow⟩ := h.window hactive
  refine ⟨owner, howner, hself, memMapPage_user hwindow huser ?_ hok⟩
  exact fun address frames halloc =>
    ⟨h.fresh howner halloc, h.fresh hactive halloc⟩

theorem Directories.map_kernel (h : Directories vm live)
    (hactive : Active vm live pageDir) (hkernel : kernelStart ≤ virtAddr)
    (hbelow : virtAddr < 0xFFC00000) {phyAddr flags : ℕ}
    (hok : memMapPage virtAddr phyAddr flags (memChangePageDir vm pageDir) =
      .ok next) :
    ∃ mapped, MapsIn (memChangePageDir vm vm.initialPageDir)
        (staticFrame vm.initialPageDir)
        (virtAddr / 0x400000) (virtAddr / 0x1000 % 0x400) (flags &&& 0x3FF)
        ((phyAddr &&& pageFlagFrame) ||| (flags &&& 0x3FF)) mapped ∧
      next = leaveKernelHalf pageDir mapped := by
  have hstatic := h.static hactive
  refine memMapPage_kernel (h.layout.low _ hstatic) (h.layout.high _ hstatic)
    ⟨h.initial_self, h.initial_self⟩ hkernel hbelow ?_ hok
  exact fun address frames halloc =>
    ⟨h.fresh (.inl rfl) halloc, h.fresh (.inl rfl) halloc⟩

theorem Directories.map_ok (h : Directories vm live)
    (hactive : Active vm live pageDir) (hbelow : virtAddr < 0xFFC00000)
    {address : ℕ} {frames : Frames}
    (halloc : pmmAllocPageFrame vm.frames = .ok (address, frames))
    (phyAddr flags : ℕ) :
    ∃ next, memMapPage virtAddr phyAddr flags (memChangePageDir vm pageDir) =
      .ok next := by
  rcases Nat.lt_or_ge virtAddr kernelStart with huser | hkernel
  · obtain ⟨owner, howner, -, hwindow⟩ := h.window hactive
    exact memMapPage_user_ok hwindow huser (h.fresh howner halloc)
      (h.fresh hactive halloc) halloc
  · have hstatic := h.static hactive
    exact memMapPage_kernel_ok (h.layout.low _ hstatic)
      (h.layout.high _ hstatic) ⟨h.initial_self, h.initial_self⟩ hkernel hbelow
      (h.fresh (.inl rfl) halloc) (h.fresh (.inl rfl) halloc) halloc

theorem Directories.unmap_user (h : Directories vm live)
    (hactive : Active vm live pageDir) (huser : virtAddr < kernelStart)
    (hok : memUnmapPage virtAddr (memChangePageDir vm pageDir) = .ok next) :
    ∃ owner, Active vm live owner ∧
      Points vm.word (staticFrame pageDir) 1023 (staticFrame owner) ∧
      UnmapsIn (memChangePageDir vm pageDir) (staticFrame owner)
        (virtAddr / 0x400000) (virtAddr / 0x1000 % 0x400)
        (virtAddr < kernelStart) next := by
  have hstart : kernelStart = 3221225472 := rfl
  obtain ⟨owner, howner, hself, hwindow⟩ := h.window hactive
  refine ⟨owner, howner, hself, memUnmapPage_user hwindow huser ?_ hok⟩
  exact fun target htable => ⟨h.table_ne howner (by omega) htable howner,
    h.table_ne howner (by omega) htable hactive⟩

theorem Directories.unmap_kernel (h : Directories vm live)
    (hactive : Active vm live pageDir) (hkernel : kernelStart ≤ virtAddr)
    (hbelow : virtAddr < 0xFFC00000)
    (hok : memUnmapPage virtAddr (memChangePageDir vm pageDir) = .ok next) :
    ((∀ target, Points vm.word (staticFrame vm.initialPageDir)
        (virtAddr / 0x400000) target →
        vm.word target (virtAddr / 0x1000 % 0x400) % 2 = 0) ∧
          next = memChangePageDir vm pageDir) ∨
      ∃ target unmapped, Points vm.word (staticFrame vm.initialPageDir)
          (virtAddr / 0x400000) target ∧
        vm.word target (virtAddr / 0x1000 % 0x400) % 2 = 1 ∧
        UnmapsIn (memChangePageDir vm vm.initialPageDir)
          (staticFrame vm.initialPageDir)
          (virtAddr / 0x400000) (virtAddr / 0x1000 % 0x400)
          (virtAddr < kernelStart) unmapped ∧
        next = leaveKernelHalf pageDir unmapped := by
  have hstatic := h.static hactive
  refine memUnmapPage_kernel (h.layout.low _ hstatic) (h.layout.high _ hstatic)
    ⟨h.initial_self, h.initial_self⟩ hkernel ?_ hok
  exact fun target htable => ⟨h.table_ne (.inl rfl) (by omega) htable (.inl rfl),
    h.table_ne (.inl rfl) (by omega) htable (.inl rfl)⟩

theorem Directories.map_edits (h : Directories vm live)
    {owner pdIndex ptIndex flags entry : ℕ} (howner : Active vm live owner)
    (hpd : pdIndex < 1023)
    (hmaps : MapsIn vm (staticFrame owner) pdIndex ptIndex (flags &&& 0x3FF)
      entry next) :
    EditsDir vm next (staticFrame owner) pdIndex :=
  hmaps.editsDir h.layout (Nat.and_lt_two_pow flags (n := 10) (by norm_num))
    (h.dirFrame howner) (h.tables owner howner pdIndex hpd)

theorem Directories.unmap_edits (h : Directories vm live)
    {owner pdIndex ptIndex : ℕ} {user : Prop} (howner : Active vm live owner)
    (hpd : pdIndex < 1023)
    (hunmaps : UnmapsIn vm (staticFrame owner) pdIndex ptIndex user next) :
    EditsDir vm next (staticFrame owner) pdIndex :=
  hunmaps.editsDir (h.dirFrame howner) (h.tables owner howner pdIndex hpd)

end

/-! ## Boot -/

/-- The page directories lie in the kernel image, on pages of their own. -/
structure KernelImage (initialPageDir pageDirs kernelEnd : ℕ) : Prop where
  initial_aligned : initialPageDir % 0x1000 = 0
  dirs_aligned : pageDirs % 0x1000 = 0
  initial_low : 0x1000 + kernelStart ≤ initialPageDir
  dirs_low : 0x1000 + kernelStart ≤ pageDirs
  initial_end : 0x1000 + initialPageDir ≤ kernelEnd
  dirs_end : 0x1000 * numPageDirs + pageDirs ≤ kernelEnd
  apart : 0x1000 + initialPageDir ≤ pageDirs ∨
    0x1000 * numPageDirs + pageDirs ≤ initialPageDir
  end_high : kernelEnd < 4294967296

def bootState (initialPageDir pageDirs kernelEnd memHigh : ℕ)
    (memory : ℕ → ℕ → ℕ) : Vm :=
  initMemory memHigh (physicalAllocStart kernelEnd)
    (bootVm initialPageDir pageDirs memory)

section

variable {initialPageDir pageDirs kernelEnd memHigh : ℕ}
  {memory : ℕ → ℕ → ℕ}

theorem staticFrame_of_le
    {pageDir : ℕ} (hlow : kernelStart ≤ pageDir)
    (hhigh : pageDir < 4294967296) :
    staticFrame pageDir = (pageDir - kernelStart) / 0x1000 := by
  unfold staticFrame
  rw [sub32_of_le hlow hhigh]

@[simp] theorem bootState_initialPageDir :
    (bootState initialPageDir pageDirs kernelEnd memHigh
      memory).initialPageDir = initialPageDir := rfl

@[simp] theorem bootState_pageDirs (i : ℕ) :
    (bootState initialPageDir pageDirs kernelEnd memHigh memory).pageDirs i =
      pageDirs + 0x1000 * i := rfl

@[simp] theorem bootState_frames :
    (bootState initialPageDir pageDirs kernelEnd memHigh memory).frames =
      bootFrames kernelEnd memHigh := rfl

theorem KernelImage.range
    (h : KernelImage initialPageDir pageDirs kernelEnd) {pageDir : ℕ}
    (hstatic : IsStatic
      (bootState initialPageDir pageDirs kernelEnd memHigh memory) pageDir) :
    pageDir % 0x1000 = 0 ∧ 0x1000 + kernelStart ≤ pageDir ∧
      0x1000 + pageDir ≤ kernelEnd := by
  obtain ⟨hinitialAligned, hdirsAligned, hinitialLow, hdirsLow, hinitialEnd,
    hdirsEnd, -, -⟩ := h
  have hnum : numPageDirs = 256 := rfl
  rcases hstatic with hinitial | ⟨i, hi, hslot⟩
  · rw [bootState_initialPageDir] at hinitial
    rw [hinitial]
    exact ⟨hinitialAligned, hinitialLow, hinitialEnd⟩
  · rw [bootState_pageDirs] at hslot
    omega

theorem bootState_layout
    (h : KernelImage initialPageDir pageDirs kernelEnd) :
    Layout (bootState initialPageDir pageDirs kernelEnd memHigh memory) := by
  have hapart := h.apart
  have hhigh := h.end_high
  have hlow := h.initial_low
  have hend := h.initial_end
  have hnum : numPageDirs = 256 := rfl
  have hstart : kernelStart = 3221225472 := rfl
  have hmin := (bootFrames_min memHigh (by omega : kernelStart ≤ kernelEnd)
    hhigh).1
  have hframe : ∀ frame, IsDirFrame
      (bootState initialPageDir pageDirs kernelEnd memHigh memory) frame →
      0 < frame ∧ frame < (kernelEnd - kernelStart) / 0x1000 + 1 := by
    rintro frame ⟨pageDir, hstatic, rfl⟩
    obtain ⟨-, hlow, hend⟩ := h.range hstatic
    rw [staticFrame_of_le (by omega) (by omega)]
    omega
  refine ⟨fun pageDir hp => (h.range hp).1, ?_, ?_,
    fun frame hf => (hframe frame hf).1, ?_, ?_, ?_, ?_⟩
  · intro pageDir hp
    have := h.range hp
    omega
  · intro pageDir hp
    have := h.range hp
    omega
  · intro frame hf
    rw [bootState_frames, hmin]
    exact (hframe frame hf).2
  · intro first second hfirst hsecond hsame
    have hone := h.range hfirst
    have htwo := h.range hsecond
    rw [staticFrame_of_le (by omega) (by omega),
      staticFrame_of_le (by omega) (by omega)] at hsame
    omega
  · intro i hi j hj hsame
    rw [bootState_pageDirs, bootState_pageDirs] at hsame
    omega
  · intro i hi hsame
    rw [bootState_pageDirs, bootState_initialPageDir] at hsame
    omega

theorem bootState_initial
    (h : KernelImage initialPageDir pageDirs kernelEnd) (x : ℕ) :
    (bootState initialPageDir pageDirs kernelEnd memHigh memory).word
        (staticFrame initialPageDir) x =
      if x = 1023 then selfEntry initialPageDir
      else if x = 768 then 0x83 else 0 := by
  have hlayout : Layout (bootState initialPageDir pageDirs kernelEnd memHigh
      memory) := bootState_layout h
  have hslot : ¬∃ i < numPageDirs, staticFrame
      ((bootVm initialPageDir pageDirs memory).pageDirs i) =
        staticFrame initialPageDir := by
    rintro ⟨i, hi, hframe⟩
    exact hlayout.slot_ne_initial hi hframe
  have hfirst : staticFrame initialPageDir ≠ staticFrame
      ((bootVm initialPageDir pageDirs memory).pageDirs 0) :=
    fun hframe => hslot ⟨0, by decide, hframe.symm⟩
  have hinitial : (bootVm initialPageDir pageDirs memory).initialPageDir =
      initialPageDir := rfl
  have hboot : (bootVm initialPageDir pageDirs memory).word
      (staticFrame initialPageDir) = bootPageDir initialPageDir := by
    simp [bootVm]
  simp only [bootState, initMemory, hinitial]
  rw [Function.update_of_ne hfirst, if_neg hslot, Vm.setWord_eq,
    Vm.withWord_word, Vm.setWord_eq, Vm.withWord_word]
  by_cases hself : x = 1023
  · rw [hself, setAt_same, if_pos rfl]
  · rw [setAt_of_ne _ _ (.inr hself), if_neg hself]
    by_cases hzero : x = 0
    · rw [hzero, setAt_same, if_neg (by norm_num)]
    · rw [setAt_of_ne _ _ (.inr hzero), hboot]
      simp [bootPageDir, hzero, hself]

theorem bootState_directories
    (h : KernelImage initialPageDir pageDirs kernelEnd) :
    Directories (bootState initialPageDir pageDirs kernelEnd memHigh memory)
      [] where
  layout := bootState_layout h
  bounded := by
    rintro pageDir (rfl | hlive) x
    · rw [bootState_initial h]
      split_ifs
      · exact selfEntry_lt
      · norm_num
      · norm_num
    · cases hlive
  slot := by simp
  initial_self := by
    unfold Points
    rw [bootState_initialPageDir, bootState_initial h, if_pos rfl]
    exact selfEntry_points
  self := by simp
  tables := by
    rintro pageDir (rfl | hlive) x hx target hpoints
    · intro hframe
      have hpos := (bootState_layout h).frame_pos _ hframe
      unfold Points at hpoints
      rw [bootState_initial h, if_neg (by omega)] at hpoints
      split_ifs at hpoints <;> omega
    · cases hlive

end

/-- A kernel image with two pages in front of its page directories, and 16 MiB
of memory. -/
def sampleBoot : Vm :=
  bootState 0xC0101000 0xC0200000 0xC0300000 0x1000000 (fun _ _ => 0)

theorem kernelImage_sample :
    KernelImage 0xC0101000 0xC0200000 0xC0300000 := by
  constructor <;> decide

theorem sampleBoot_layout : Layout sampleBoot :=
  bootState_layout kernelImage_sample

theorem sampleBoot_absent : (addPageDir sampleBoot 1).word
    (staticFrame (addPageDir sampleBoot 1).initialPageDir) 832 % 2 = 0 := by
  have hsame := addPageDir_initial (i := 1) sampleBoot_layout (by decide) 832
  have hboot : sampleBoot.word (staticFrame sampleBoot.initialPageDir) 832 =
      0 := bootState_initial kernelImage_sample 832
  exact congrArg (fun word => word % 2) (hsame.trans hboot)

theorem sampleBoot_values :
    unusedPageDir sampleBoot = some 1 ∧
      (pmmAllocPageFrame (addPageDir sampleBoot 1).frames).satisfies
        (fun _ => true) = true := by
  decide +kernel

theorem sampleBoot_unused : unusedPageDir sampleBoot = some 1 :=
  sampleBoot_values.1

theorem sampleBoot_alloc :
    ∃ address frames, pmmAllocPageFrame (addPageDir sampleBoot 1).frames =
      .ok (address, frames) := by
  obtain ⟨⟨address, frames⟩, halloc, -⟩ :=
    Outcome.exists_of_satisfies sampleBoot_values.2
  exact ⟨address, frames, halloc⟩

theorem sampleBoot_call :
    VmmCall.run (memChangePageDir sampleBoot sampleBoot.initialPageDir)
      .newPageDir = .ok (0xC0201000, addPageDir sampleBoot 1) := by
  have hunused : unusedPageDir (memChangePageDir sampleBoot
      sampleBoot.initialPageDir) = some 1 := sampleBoot_unused
  simp only [VmmCall.run, vmmNewPageDir_some hunused]
  rfl

theorem sampleBoot_newPageDir
    (may : Vm → List ℕ → ℕ → VmmCall → Prop)
    (hmay : may sampleBoot [] sampleBoot.initialPageDir .newPageDir) :
    VmmRun may sampleBoot [0xC0201000] (addPageDir sampleBoot 1) :=
  .call .boot (.inl rfl) hmay sampleBoot_call

end ClOs.Memory
