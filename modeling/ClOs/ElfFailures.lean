import ClOs.ElfConfinement

/-!
# Loads that fail

`elf_load` returns -1 for a header that `validate_elf` rejects and when a page
gets no frame.  It takes no page back that it has mapped, and the return for the
page of the stack leaves the directory of the process in CR3.
-/

namespace ClOs

namespace Elf

open Memory Stopping

/-! ## Rejected headers -/

section

variable {image : ByteStore}

theorem expects_rejects
    {value : Load ℕ} {v expected : ℕ} {rest : Load ℤ} {script : List Access}
    {l : Loader} (hvalue : value l = (.ok v, l.noted script))
    (hrest : v = expected →
      ∃ more, rest (l.noted script) = (.ok (-1), (l.noted script).noted more)) :
    ∃ more, expects value expected rest l = (.ok (-1), l.noted more) := by
  rw [expects_eq hvalue]
  split_ifs with hne
  · exact ⟨script, rfl⟩
  · obtain ⟨more, hmore⟩ := hrest (not_not.1 hne)
    exact ⟨script ++ more, by rw [hmore, Loader.noted_noted]⟩

/-- An image that is not accepted is read and nothing else. -/
theorem validateElf_rejects
    (hnot : ¬Accepts image) (l : Loader) :
    ∃ more, validateElf image l = (.ok (-1), l.noted more) := by
  unfold validateElf
  refine expects_rejects (readByte_eq 0 l) fun h0 => ?_
  refine expects_rejects (readByte_eq 1 _) fun h1 => ?_
  refine expects_rejects (readByte_eq 2 _) fun h2 => ?_
  refine expects_rejects (readByte_eq 3 _) fun h3 => ?_
  refine expects_rejects (readByte_eq eiClass _) fun hclass => ?_
  refine expects_rejects (read16_eq 18 _) fun hmachine => ?_
  refine expects_rejects (read16_eq 16 _) fun htype => ?_
  exact absurd (accepts_of_header h0 h1 h2 h3 hclass hmachine htype) hnot

theorem elfLoad_rejects
    (hnot : ¬Accepts image) (pageDir : ℕ) (l : Loader) :
    ∃ more, elfLoad image pageDir l = (.ok (-1), l.noted more) := by
  obtain ⟨more, hvalidate⟩ := validateElf_rejects hnot l
  refine ⟨more, ?_⟩
  unfold elfLoad
  rw [bind_ok hvalidate, if_pos (by norm_num)]
  rfl

/-! ## The returns for missing frames -/

variable {pageDir : ℕ} {l next : Loader}

/-- A load in which a page gets no frame returns -1.  CR3 is restored unless the
page is the one of the stack. -/
theorem elfLoad_outOfMemory
    (haccepts : Accepts image) {performed rest : List Access} {a : ℕ}
    {mid : Loader} (hsplit : loadScript image = performed ++ .map a :: rest)
    (hrun : runAll perform performed (l.entered image pageDir) = (.ok (), mid))
    (hpage : mapNewPage a mid = (.error .outOfMemory, next)) :
    elfLoad image pageDir l = (.ok (-1),
      if rest = [] then next
      else { next with
        vm := memChangePageDir next.vm (memGetCurrentPageDir l.vm) }) := by
  rw [elfLoad_eq haccepts]
  have hperforms : Performs perform
      (loadSegments image (phoff image) (phnum image) 0)
      (segmentsScript image 0 (phnum image)) () :=
    loadSegments_performs (phnum image) 0
  have hsegments := hperforms (l.entered image pageDir)
  have hstop : perform (.map a) mid = (.error .outOfMemory, next) := hpage
  unfold afterSegments onOutOfMemory
  unfold loadScript at hsplit
  rcases List.eq_nil_or_concat rest with rfl | ⟨front, last, rfl⟩
  · obtain ⟨hsame, hlast⟩ := List.append_inj' hsplit (by simp)
    have ha := Access.map.inj (List.cons.inj hlast).1
    rw [hsame, bind_ok hrun] at hsegments
    rw [bind_ok hsegments, if_pos rfl]
    unfold mapStack onOutOfMemory
    rw [ha, bind_error hpage]
    rfl
  · have hsame : segmentsScript image 0 (phnum image) =
        performed ++ .map a :: front := by
      rw [List.concat_eq_append, ← List.cons_append, ← List.append_assoc]
        at hsplit
      exact (List.append_inj' hsplit (by simp)).1
    have hscript : runAll perform (segmentsScript image 0 (phnum image))
        (l.entered image pageDir) = (.error .outOfMemory, next) := by
      rw [hsame, runAll_append, bind_ok hrun, runAll, bind_error hstop]
    rw [bind_error hscript] at hsegments
    rw [bind_error hsegments, if_neg (by simp)]
    rfl

theorem runAll_outOfMemory
    {script : List Access}
    (hrun : runAll perform script l = (.error .outOfMemory, next)) :
    ∃ performed a rest mid, script = performed ++ .map a :: rest ∧
      runAll perform performed l = (.ok (), mid) ∧
      mapNewPage a mid = (.error .outOfMemory, next) := by
  obtain ⟨performed, access, rest, mid, hsplit, hperformed, hstop⟩ :=
    runAll_error hrun
  cases access with
  | read offset => cases hstop
  | map a => exact ⟨performed, a, rest, mid, hsplit, hperformed, hstop⟩
  | write a value =>
      have hwrite : writeByte a value mid = (.error .outOfMemory, next) := hstop
      cases hstore : storeByte a value mid.vm with
      | error halt =>
          rw [writeByte_error hstore] at hwrite
          cases hwrite
      | ok vm =>
          rw [writeByte_ok hstore] at hwrite
          cases hwrite

/-- A load of an accepted image returns 0 with CR3 restored, or it returns -1
because a page got no frame, or it does not return. -/
theorem elfLoad_cases
    (haccepts : Accepts image) {result : ℤ}
    (hload : elfLoad image pageDir l = (.ok result, next)) :
    (result = 0 ∧ next.vm.cr3 = sub32 (memGetCurrentPageDir l.vm) kernelStart) ∨
      ∃ performed a rest mid last,
        loadScript image = performed ++ .map a :: rest ∧
        runAll perform performed (l.entered image pageDir) = (.ok (), mid) ∧
        mapNewPage a mid = (.error .outOfMemory, last) := by
  cases hscript : runAll perform (loadScript image)
      (l.entered image pageDir) with
  | mk outcome last =>
      cases outcome with
      | ok ended =>
          rw [elfLoad_ends haccepts hscript] at hload
          cases hload
          exact .inl ⟨rfl, rfl⟩
      | error reason =>
          cases reason with
          | halt halt =>
              rw [elfLoad_faults haccepts hscript] at hload
              cases hload
          | outOfMemory =>
              obtain ⟨performed, a, rest, mid, hsplit, hrun, hpage⟩ :=
                runAll_outOfMemory hscript
              exact .inr ⟨performed, a, rest, mid, last, hsplit, hrun, hpage⟩

theorem elfLoad_keeps
    (keeps left : Vm → Prop)
    (hrejected : ¬Accepts image → left l.vm)
    (hentered : keeps (memChangePageDir l.vm pageDir))
    (hstep : Accepts image → ∀ performed access rest mid,
      loadScript image = performed ++ access :: rest →
      runAll perform performed (l.entered image pageDir) = (.ok (), mid) →
      keeps mid.vm → keeps (perform access mid).2.vm)
    (hleft : ∀ vm, keeps vm → left vm ∧
      left (memChangePageDir vm (memGetCurrentPageDir l.vm))) :
    left (elfLoad image pageDir l).2.vm := by
  by_cases haccepts : Accepts image
  · have hkeeps := runAll_keeps (fun l : Loader => keeps l.vm)
      (hstep haccepts) (show keeps (l.entered image pageDir).vm from hentered)
    cases hscript : runAll perform (loadScript image)
        (l.entered image pageDir) with
    | mk outcome last =>
        rw [hscript] at hkeeps
        obtain ⟨hlast, hchanged⟩ := hleft last.vm hkeeps
        cases outcome with
        | ok ended =>
            rw [elfLoad_ends haccepts hscript]
            exact hchanged
        | error reason =>
            cases reason with
            | halt halt =>
                rw [elfLoad_faults haccepts hscript]
                exact hlast
            | outOfMemory =>
                obtain ⟨performed, a, rest, mid, hsplit, hrun, hpage⟩ :=
                  runAll_outOfMemory hscript
                rw [elfLoad_outOfMemory haccepts hsplit hrun hpage]
                split_ifs
                · exact hlast
                · exact hchanged
  · obtain ⟨more, hreturn⟩ := elfLoad_rejects haccepts pageDir l
    rw [hreturn]
    exact hrejected haccepts

end

/-! ## Frames -/

def framesLeft (vm : Vm) : Finset ℕ → ℕ → List Access → ℕ
  | _, free, [] => free
  | tables, free, access :: script =>
      framesLeft vm (access.tables tables) (access.left vm tables free) script

instance (vm : Vm) (dir : ℕ) (tables : Finset ℕ) (page : ℕ) :
    Decidable (KernelPage vm dir tables page) :=
  inferInstanceAs (Decidable (_ ∨ _))

instance (vm : Vm) (dir : ℕ) (cells : ℕ → Cell) (tables : Finset ℕ) (free : ℕ)
    (access : Access) : Decidable (access.Made vm dir cells tables free) :=
  match access with
  | .read _ => inferInstanceAs (Decidable True)
  | .map _ => inferInstanceAs (Decidable (_ ∧ _))
  | .write a _ => inferInstanceAs (Decidable (if a < kernelStart then
      cells a ≠ .unmapped else KernelPage vm dir tables (a / 0x1000)))

/-- Whether a script is made can be computed. -/
def decideMakes (vm : Vm) (dir : ℕ) :
    ∀ (cells : ℕ → Cell) (tables : Finset ℕ) (free : ℕ) (script : List Access),
      Decidable (Makes vm dir cells tables free script)
  | _, _, _, [] => inferInstanceAs (Decidable True)
  | cells, tables, free, access :: script =>
      have := decideMakes vm dir (Cell.step cells access)
        (access.tables tables) (access.left vm tables free) script
      inferInstanceAs (Decidable (_ ∧ _))

instance (vm : Vm) (dir : ℕ) (cells : ℕ → Cell) (tables : Finset ℕ) (free : ℕ)
    (script : List Access) : Decidable (Makes vm dir cells tables free script) :=
  decideMakes vm dir cells tables free script

section

variable {start vm : Vm} {live : List ℕ} {pageDir : ℕ} {cells : ℕ → Cell}
  {tables : Finset ℕ} {l next : Loader} {size : ℕ} {script : List Access}

/-- A script whose accesses are made is executed to its end. -/
theorem Confining.performsAll
    (h : Confining start live pageDir cells tables l.vm) (hlayout : Layout start)
    (hstatic : IsStatic start pageDir)
    (hbounded : ∀ access ∈ script, access.Bounded)
    (hinside : ∀ access ∈ script, access.Inside size)
    (hmakes : Makes start (staticFrame pageDir) cells tables
      l.vm.frames.free.card script) :
    ∃ next cells' tables', Stopping.runAll perform script l = (.ok (), next) ∧
      Confining start live pageDir cells' tables' next.vm ∧
      next.vm.frames.free.card =
        framesLeft start tables l.vm.frames.free.card script := by
  induction script generalizing cells tables l with
  | nil => exact ⟨l, cells, tables, rfl, h, rfl⟩
  | cons access script ih =>
      obtain ⟨hmade, hlater⟩ := hmakes
      obtain ⟨mid, hperform, hmid, hleft⟩ := h.performs hlayout hstatic
        (hbounded access (List.mem_cons_self ..))
        (hinside access (List.mem_cons_self ..)) hmade
      rw [← hleft] at hlater
      obtain ⟨next, cells', tables', hrun, hnext, hcard⟩ := ih hmid
        (fun other hother => hbounded other (List.mem_cons_of_mem _ hother))
        (fun other hother => hinside other (List.mem_cons_of_mem _ hother))
        hlater
      refine ⟨next, cells', tables', ?_, hnext, ?_⟩
      · rw [Stopping.runAll, bind_ok hperform, hrun]
      · rw [framesLeft, hcard, hleft]

/-- A script that is executed to its end is made. -/
theorem Confining.makes_of_ok
    (h : Confining start live pageDir cells tables l.vm) (hlayout : Layout start)
    (hstatic : IsStatic start pageDir)
    (hbounded : ∀ access ∈ script, access.Bounded)
    (hinside : ∀ performed, performed <+: script →
      Makes start (staticFrame pageDir) cells tables l.vm.frames.free.card
        performed → ∀ access ∈ performed, access.Inside size)
    (hrun : Stopping.runAll perform script l = (.ok (), next)) :
    Makes start (staticFrame pageDir) cells tables l.vm.frames.free.card
      script := by
  obtain ⟨performed, htrace, -, hmakes, -⟩ :=
    h.runAll hlayout hstatic hbounded hinside
  obtain ⟨logged, -, hlog, hall⟩ := perform_logs.runAll script l
  have hsame : performed = script := by
    rw [htrace] at hlog
    rw [List.append_cancel_left hlog]
    exact hall () (by rw [hrun])
  rwa [hsame] at hmakes

theorem mapNewPage_outOfMemory
    (a : ℕ) (hnone : l.vm.frames.free.card = 0)
    (hbound : l.vm.frames.pageFrameMax ≤
      max numPageFrames l.vm.frames.pageFrameMin) :
    mapNewPage a l = (.error .outOfMemory, l) := by
  have halloc : pmmAllocPageFrame l.vm.frames = .ok (0, l.vm.frames) := by
    rcases Nat.lt_or_ge l.vm.frames.pageFrameMin l.vm.frames.pageFrameMax with
      hrange | hempty
    · exact (pmmAllocPageFrame_none hnone hrange).1 (by omega)
    · unfold pmmAllocPageFrame
      rw [Nat.sub_eq_zero_of_le hempty]
      rfl
  exact mapNewPage_zero halloc

theorem free_of_outOfMemory
    {a : ℕ} (hmin : 0 < l.vm.frames.pageFrameMin)
    (hpage : mapNewPage a l = (.error .outOfMemory, next)) :
    next = l ∧ l.vm.frames.free.card = 0 ∧
      l.vm.frames.pageFrameMax ≤
        max numPageFrames l.vm.frames.pageFrameMin := by
  by_cases hnone : l.vm.frames.free.card = 0
  · obtain ⟨reason, hstop⟩ := mapNewPage_none a hnone
    rw [hstop] at hpage
    cases hpage
    refine ⟨rfl, hnone, ?_⟩
    by_contra hlarge
    have halloc := (pmmAllocPageFrame_none hnone (by omega)).2 (by omega)
    rw [mapNewPage_halts halloc] at hstop
    cases hstop
  · have hhas : HasFree l.vm.frames := Frames.hasFree (by omega)
    obtain ⟨phys, frames, halloc⟩ := hhas.alloc
    have hphys := hhas.alloc_ne_zero hmin halloc
    cases hmap : memMapPage a phys pageFlags { l.vm with frames := frames } with
    | error halt =>
        rw [mapNewPage_error halloc hphys hmap] at hpage
        cases hpage
    | ok vm =>
        rw [mapNewPage_ok halloc hphys hmap] at hpage
        cases hpage

/-- Without a free frame nothing of a fresh directory is changed. -/
theorem Confining.exhausted
    (h : Confining start live pageDir (fun _ => .unmapped) tables l.vm)
    (hbounded : ∀ access ∈ script, access.Bounded)
    (hinside : ∀ access ∈ script, access.Inside size)
    (hnone : l.vm.frames.free.card = 0) :
    (Stopping.runAll perform script l).2.vm = l.vm := by
  induction script generalizing l with
  | nil => rfl
  | cons access script ih =>
      have haccess := hbounded access (List.mem_cons_self ..)
      have hfirst := hinside access (List.mem_cons_self ..)
      rw [Stopping.runAll]
      cases access with
      | read offset =>
          have hread : perform (.read offset) l =
            (.ok (), { l with trace := l.trace ++ [.read offset] }) := rfl
          rw [bind_ok hread]
          exact ih (l := { l with trace := l.trace ++ [.read offset] }) h
            (fun other hother => hbounded other (List.mem_cons_of_mem _ hother))
            (fun other hother => hinside other (List.mem_cons_of_mem _ hother))
            hnone
      | map a =>
          obtain ⟨reason, hstop⟩ := mapNewPage_none a hnone
          have hperform : perform (.map a) l = (.error reason, l) := hstop
          rw [bind_error hperform]
      | write a value =>
          have hnot : ¬(Access.write a value).Made start (staticFrame pageDir)
              (fun _ => .unmapped) tables 0 := by
            have huser : a < kernelStart := hfirst
            simp only [Access.Made, if_pos huser]
            simp
          obtain ⟨reason, hfault⟩ := h.faults haccess.1 hnot
          rw [bind_error hfault]

/-! ## What an access takes -/

theorem storeByte_keeps
    {start next : Vm} {a value : ℕ} (hstore : storeByte a value start = .ok next) :
    next.frames = start.frames ∧ next.cr3 = start.cr3 := by
  unfold storeByte at hstore
  split at hstore
  · cases hstore
  · cases hstore
    exact ⟨rfl, rfl⟩

/-- An access that maps no page takes no frame and leaves CR3. -/
theorem perform_noMap
    {access : Access} (hno : ∀ a, access ≠ .map a) (l : Loader) :
    (perform access l).2.vm.frames = l.vm.frames ∧
      (perform access l).2.vm.cr3 = l.vm.cr3 := by
  cases access with
  | read offset => exact ⟨rfl, rfl⟩
  | map a => exact absurd rfl (hno a)
  | write a value =>
      change (writeByte a value l).2.vm.frames = _ ∧
        (writeByte a value l).2.vm.cr3 = _
      cases hstore : storeByte a value l.vm with
      | error halt =>
          rw [writeByte_error hstore]
          exact ⟨rfl, rfl⟩
      | ok next =>
          rw [writeByte_ok hstore]
          exact storeByte_keeps hstore

theorem runAll_noMap
    {performed : List Access} (hno : ∀ a, .map a ∉ performed)
    (hrun : Stopping.runAll perform performed l = (.ok (), next)) :
    next.vm.frames = l.vm.frames ∧ next.vm.cr3 = l.vm.cr3 := by
  have hkeeps := runAll_keeps
    (fun mid : Loader => mid.vm.frames = l.vm.frames ∧ mid.vm.cr3 = l.vm.cr3)
    (?_ : ∀ front access rest mid, performed = front ++ access :: rest →
      Stopping.runAll perform front l = (.ok (), mid) → _) (And.intro rfl rfl)
  · rwa [hrun] at hkeeps
  · intro front access rest mid hsplit _ hmid
    have hother : ∀ a, access ≠ .map a := by
      rintro a rfl
      exact hno a (hsplit ▸ List.mem_append_right _ (List.mem_cons_self ..))
    obtain ⟨hframes, hcr3⟩ := perform_noMap hother mid
    exact ⟨hframes.trans hmid.1, hcr3.trans hmid.2⟩

/-- What has been taken of the frames: at most `count` of the free ones, and
none has come back. -/
structure TakesFrames (frames after : Frames) (count : ℕ) : Prop where
  min_eq : after.pageFrameMin = frames.pageFrameMin
  free_le : frames.free.card ≤ after.free.card + count
  card_le : frames.allocated.card ≤ after.allocated.card

theorem TakesFrames.trans
    {frames middle after : Frames} {m n : ℕ}
    (h : TakesFrames frames middle m) (h' : TakesFrames middle after n) :
    TakesFrames frames after (m + n) where
  min_eq := h'.min_eq.trans h.min_eq
  free_le := by
    have hfirst := h.free_le
    have hsecond := h'.free_le
    omega
  card_le := h.card_le.trans h'.card_le

theorem pmmAllocPageFrame_takesFrames
    {frames after : Frames} {address : ℕ}
    (halloc : pmmAllocPageFrame frames = .ok (address, after)) :
    TakesFrames frames after 1 where
  min_eq := (pmmAllocPageFrame_cases halloc).1
  free_le := by
    rcases pmmAllocFrom_spec halloc with
      ⟨-, rfl⟩ | ⟨taken, -, -, -, -, -, rfl⟩
    · omega
    · have hsubset : frames.free ⊆ insert taken (Frames.free { frames with
          physicalMemoryBitmap := frames.physicalMemoryBitmap.setBit taken
          totalAlloc := u32 (frames.totalAlloc + 1) }) := by
        intro frame hframe
        rw [Finset.mem_insert, Frames.mem_free]
        obtain ⟨hbound, hlow, hhigh, hclear⟩ := Frames.mem_free.1 hframe
        by_cases hsame : frame = taken
        · exact .inl hsame
        · refine .inr ⟨hbound, hlow, hhigh, ?_⟩
          simp [ByteStore.bit_setBit, hclear, Ne.symm hsame]
      exact (Finset.card_le_card hsubset).trans (Finset.card_insert_le _ _)
  card_le := (Nat.le_add_right _ _).trans (pmmAllocPageFrame_card halloc)

theorem memMapPage_takesFrames
    {start after : Vm} {virtAddr phyAddr flags : ℕ}
    (hmap : memMapPage virtAddr phyAddr flags start = .ok after) :
    TakesFrames start.frames after.frames 1 := by
  obtain ⟨tabled, htable, hmap⟩ := Outcome.bind_eq_ok.mp hmap
  obtain ⟨written, hwrite, hmap⟩ := Outcome.bind_eq_ok.mp hmap
  cases hmap
  rw [leaveKernelHalf_frames, show ({ written with
    memNumVpages := _ } : Vm).frames = written.frames from rfl,
    writeEntry_frames hwrite, ← enterKernelHalf_frames virtAddr start]
  obtain ⟨pde, -, htable⟩ := Outcome.bind_eq_ok.mp htable
  split_ifs at htable with hpde
  · obtain ⟨⟨ptPaddr, frames⟩, halloc, htable⟩ :=
      Outcome.bind_eq_ok.mp htable
    rw [Outcome.bind_eq_ok] at htable
    obtain ⟨entered, henter, hzero⟩ := htable
    rw [zeroEntries_frames hzero, writeEntry_frames henter]
    exact pmmAllocPageFrame_takesFrames halloc
  · cases htable
    exact ⟨rfl, Nat.le_add_right _ _, le_rfl⟩

theorem mapNewPage_takesFrames
    {a : ℕ} (hpage : mapNewPage a l = (.ok (), next)) :
    TakesFrames l.vm.frames next.vm.frames 2 ∧
      l.vm.frames.allocated.card < next.vm.frames.allocated.card := by
  cases halloc : pmmAllocPageFrame l.vm.frames with
  | error halt =>
      rw [mapNewPage_halts halloc] at hpage
      cases hpage
  | ok taken =>
      obtain ⟨phys, frames⟩ := taken
      by_cases hphys : phys = 0
      · rw [hphys] at halloc
        rw [mapNewPage_zero halloc] at hpage
        cases hpage
      · cases hmap : memMapPage a phys pageFlags
            { l.vm with frames := frames } with
        | error halt =>
            rw [mapNewPage_error halloc hphys hmap] at hpage
            cases hpage
        | ok after =>
            rw [mapNewPage_ok halloc hphys hmap] at hpage
            cases hpage
            have hmapped := memMapPage_takesFrames hmap
            have hcard := pmmAllocPageFrame_card halloc
            rw [if_neg hphys] at hcard
            exact ⟨(pmmAllocPageFrame_takesFrames halloc).trans hmapped,
              hcard.trans hmapped.card_le⟩

/-- The pages that a script maps. -/
def mapCount (script : List Access) : ℕ :=
  script.countP fun access => match access with
    | .map _ => true
    | _ => false

theorem runAll_takesFrames
    {performed : List Access}
    (hrun : Stopping.runAll perform performed l = (.ok (), next)) :
    TakesFrames l.vm.frames next.vm.frames (2 * mapCount performed) ∧
      ∀ a, .map a ∈ performed →
        l.vm.frames.allocated.card < next.vm.frames.allocated.card := by
  induction performed generalizing l with
  | nil =>
      cases hrun
      exact ⟨⟨rfl, Nat.le_add_right _ _, le_rfl⟩, fun a hmem =>
        absurd hmem List.not_mem_nil⟩
  | cons access rest ih =>
      rw [Stopping.runAll] at hrun
      cases hfirst : perform access l with
      | mk outcome mid =>
          cases outcome with
          | error reason =>
              rw [bind_error hfirst] at hrun
              cases hrun
          | ok ended =>
              rw [bind_ok hfirst] at hrun
              obtain ⟨htakes, hgrows⟩ := ih hrun
              by_cases hmap : ∃ a, access = .map a
              · obtain ⟨a, rfl⟩ := hmap
                obtain ⟨htaken, hcard⟩ := mapNewPage_takesFrames hfirst
                have hcount : mapCount (.map a :: rest) = mapCount rest + 1 :=
                  List.countP_cons_of_pos rfl
                refine ⟨?_, fun _ _ => hcard.trans_le htakes.card_le⟩
                rw [hcount, show 2 * (mapCount rest + 1) =
                  2 + 2 * mapCount rest by omega]
                exact htaken.trans htakes
              · have hno : ∀ a, access ≠ .map a := fun a ha => hmap ⟨a, ha⟩
                have hsame := (perform_noMap hno l).1
                rw [hfirst] at hsame
                have hcount : mapCount (access :: rest) = mapCount rest := by
                  cases access with
                  | map a => exact absurd rfl (hno a)
                  | read offset => exact List.countP_cons_of_neg (by simp)
                  | write a value => exact List.countP_cons_of_neg (by simp)
                rw [hcount, ← hsame]
                refine ⟨htakes, fun a hmem => hgrows a ?_⟩
                rcases List.mem_cons.1 hmem with heq | hmem
                · exact absurd heq.symm (hno a)
                · exact hmem

/-- A page that gets no frame leaves all but the bitmap as it was. -/
theorem mapNewPage_stopped
    {a : ℕ} (hpage : mapNewPage a l = (.error .outOfMemory, next)) :
    next.vm.word = l.vm.word ∧ next.vm.cr3 = l.vm.cr3 ∧
      l.vm.frames.allocated.card ≤ next.vm.frames.allocated.card := by
  cases halloc : pmmAllocPageFrame l.vm.frames with
  | error halt =>
      rw [mapNewPage_halts halloc] at hpage
      cases hpage
  | ok taken =>
      obtain ⟨phys, frames⟩ := taken
      by_cases hphys : phys = 0
      · rw [hphys] at halloc
        rw [mapNewPage_zero halloc] at hpage
        cases hpage
        exact ⟨rfl, rfl, (pmmAllocPageFrame_takesFrames halloc).card_le⟩
      · cases hmap : memMapPage a phys pageFlags
            { l.vm with frames := frames } with
        | error halt =>
            rw [mapNewPage_error halloc hphys hmap] at hpage
            cases hpage
        | ok after =>
            rw [mapNewPage_ok halloc hphys hmap] at hpage
            cases hpage

/-! ## What a load leaves -/

/-- On every return CR3 is the one of the call, and a return of -1 leaves the
frames and the pages of the directory as they were. -/
def Restores (image : ByteStore) (pageDir : ℕ) (l : Loader) : Prop :=
  ∀ result next, elfLoad image pageDir l = (.ok result, next) →
    next.vm.cr3 = l.vm.cr3 ∧
      (result = -1 → next.vm.frames.allocated = l.vm.frames.allocated ∧
        ∀ page, translate next.vm.word (staticFrame pageDir) page =
          translate l.vm.word (staticFrame pageDir) page)

/-- After `performed` the next page of the load gets no frame. -/
def RunsOut (image : ByteStore) (pageDir : ℕ) (l : Loader)
    (performed rest : List Access) (mid : Loader) : Prop :=
  ∃ a last, loadScript image = performed ++ .map a :: rest ∧
    Stopping.runAll perform performed (l.entered image pageDir) =
      (.ok (), mid) ∧
    mapNewPage a mid = (.error .outOfMemory, last)

/-- Nothing needs to be undone there: no page has been mapped, the bytes that
were stored have changed no page of the directory, and at the page of the stack
the directory was in CR3 before. -/
structure Clean (pageDir : ℕ) (l : Loader) (performed rest : List Access)
    (mid : Loader) : Prop where
  noMap : ∀ a, .map a ∉ performed
  kept : ∀ page, translate mid.vm.word (staticFrame pageDir) page =
    translate l.vm.word (staticFrame pageDir) page
  active : rest = [] → pageDir = memGetCurrentPageDir l.vm

/-- The condition under which `elf_load` leaves nothing behind: the header is
rejected, or no page runs out of frames behind another. -/
def Undoes (image : ByteStore) (pageDir : ℕ) (l : Loader) : Prop :=
  ¬Accepts image ∨ ∀ performed rest mid,
    RunsOut image pageDir l performed rest mid →
      Clean pageDir l performed rest mid

/-- The accesses that a load makes lie in the user half. -/
def StaysInUserHalf (image : ByteStore) (vm : Vm) (pageDir : ℕ) : Prop :=
  StaysInside image 4294967296 vm pageDir

/-- A page finds the frames used up only when none was free at the start, and the
page of the stack does so only when the directory was in CR3 before. -/
def FailsClean (image : ByteStore) (vm : Vm) (pageDir oldPageDir : ℕ) : Prop :=
  ∀ performed a rest, loadScript image = performed ++ .map a :: rest →
    Makes vm (staticFrame pageDir) (fun _ => .unmapped) ∅ vm.frames.free.card
      performed →
    framesLeft vm ∅ vm.frames.free.card performed = 0 →
    vm.frames.pageFrameMax ≤ max numPageFrames vm.frames.pageFrameMin →
      vm.frames.free.card = 0 ∧ (rest = [] → pageDir = oldPageDir)

variable {image : ByteStore} {oldPageDir entry : ℕ}

theorem restores_of_rejected
    (hrejected : ¬Accepts image) : Restores image pageDir l := by
  intro result next hload
  obtain ⟨more, hreturn⟩ := elfLoad_rejects hrejected pageDir l
  rw [hreturn] at hload
  cases hload
  exact ⟨rfl, fun _ => ⟨rfl, fun _ => rfl⟩⟩

theorem RunsOut.free_lt
    {performed rest : List Access} {mid : Loader}
    (h : RunsOut image pageDir l performed rest mid)
    (hmin : 0 < l.vm.frames.pageFrameMin) :
    l.vm.frames.free.card < 2 * mapCount (loadScript image) := by
  obtain ⟨a, last, hsplit, hrun, hpage⟩ := h
  obtain ⟨htakes, -⟩ := runAll_takesFrames hrun
  have hnone := (free_of_outOfMemory (by
    rw [htakes.min_eq]
    exact hmin) hpage).2.1
  have hfree : l.vm.frames.free.card ≤
      mid.vm.frames.free.card + 2 * mapCount performed := htakes.free_le
  have hcount : mapCount (loadScript image) =
      mapCount performed + (mapCount rest + 1) := by
    rw [hsplit]
    unfold mapCount
    rw [List.countP_append, List.countP_cons_of_pos rfl]
  omega

section

variable (hfresh : Fresh vm live pageDir) (h : Memory.Apart vm live)
  (hold : Active vm live oldPageDir)

include h hold

omit hfresh in
theorem Active.current :
    memGetCurrentPageDir (memChangePageDir vm oldPageDir) = oldPageDir :=
  have hstatic := h.directories.static hold
  memGetCurrentPageDir_change vm (h.directories.layout.low _ hstatic)
    (h.directories.layout.high _ hstatic)

omit hfresh in
theorem restores_of_clean
    (haccepts : Accepts image)
    (hclean : ∀ performed rest mid,
      RunsOut image pageDir ⟨memChangePageDir vm oldPageDir, entry, []⟩ performed
        rest mid →
      Clean pageDir ⟨memChangePageDir vm oldPageDir, entry, []⟩ performed rest
        mid) :
    Restores image pageDir ⟨memChangePageDir vm oldPageDir, entry, []⟩ := by
  have hget := Active.current h hold
  intro result next hload
  rcases elfLoad_cases haccepts hload with
    ⟨rfl, hcr3⟩ | ⟨performed, a, rest, mid, last, hsplit, hrun, hpage⟩
  · refine ⟨?_, fun hfailed => absurd hfailed (by norm_num)⟩
    rw [hcr3, hget]
    rfl
  · obtain ⟨hno, hkept, hactive⟩ :=
      hclean performed rest mid ⟨a, last, hsplit, hrun, hpage⟩
    obtain ⟨hframes, hcr3⟩ := runAll_noMap hno hrun
    have hframes : mid.vm.frames = vm.frames := hframes
    have hmin : 0 < mid.vm.frames.pageFrameMin := by
      rw [hframes]
      exact h.directories.min_pos
    obtain ⟨rfl, -, -⟩ := free_of_outOfMemory hmin hpage
    have hallocated : last.vm.frames.allocated = vm.frames.allocated := by
      rw [hframes]
    rw [elfLoad_outOfMemory haccepts hsplit hrun hpage, hget] at hload
    split_ifs at hload with hlast
    · cases hload
      refine ⟨hcr3.trans ?_, fun _ => ⟨hallocated, hkept⟩⟩
      rw [hactive hlast, hget]
      rfl
    · cases hload
      exact ⟨rfl, fun _ => ⟨hallocated, hkept⟩⟩

include hfresh

theorem clean_of_restores
    (haccepts : Accepts image)
    (hrestores : Restores image pageDir
      ⟨memChangePageDir vm oldPageDir, entry, []⟩)
    {performed rest : List Access} {mid : Loader}
    (hout : RunsOut image pageDir ⟨memChangePageDir vm oldPageDir, entry, []⟩
      performed rest mid) :
    Clean pageDir ⟨memChangePageDir vm oldPageDir, entry, []⟩ performed rest
      mid := by
  have hdirs := h.directories
  have hlayout := hdirs.layout
  obtain ⟨a, last, hsplit, hrun, hpage⟩ := hout
  obtain ⟨hcr3, hfailed⟩ := hrestores _ _
    (elfLoad_outOfMemory haccepts hsplit hrun hpage)
  obtain ⟨hallocated, hwalks⟩ := hfailed rfl
  obtain ⟨hword, hlast, hcard⟩ := mapNewPage_stopped hpage
  have hsame : last.vm.frames.allocated = vm.frames.allocated := by
    refine Eq.trans ?_ hallocated
    split_ifs <;> rfl
  have hno : ∀ b, .map b ∉ performed := by
    intro b hmem
    have hlt : vm.frames.allocated.card < mid.vm.frames.allocated.card :=
      (runAll_takesFrames hrun).2 b hmem
    rw [← hsame] at hlt
    omega
  refine ⟨hno, fun page => ?_, fun hrest => ?_⟩
  · rw [← hword, ← hwalks page]
    split_ifs <;> rfl
  · rw [if_pos hrest, hlast, (runAll_noMap hno hrun).2] at hcr3
    have hcr3 : sub32 pageDir kernelStart = sub32 oldPageDir kernelStart := hcr3
    have hnew := hdirs.static hfresh.active
    have hprev := hdirs.static hold
    rw [sub32_of_le (hlayout.low _ hnew) (hlayout.high _ hnew),
      sub32_of_le (hlayout.low _ hprev) (hlayout.high _ hprev)] at hcr3
    have hlow := hlayout.low _ hnew
    have hlow' := hlayout.low _ hprev
    rw [Active.current h hold]
    omega

/-- For an image that stays in the user half the pages that run out of frames
are counted beforehand. -/
theorem clean_iff_failsClean
    (hinside : StaysInUserHalf image vm pageDir) :
    (∀ performed rest mid,
      RunsOut image pageDir ⟨memChangePageDir vm oldPageDir, entry, []⟩ performed
        rest mid →
      Clean pageDir ⟨memChangePageDir vm oldPageDir, entry, []⟩ performed rest
        mid) ↔ FailsClean image vm pageDir oldPageDir := by
  have hdirs := h.directories
  have hlayout := hdirs.layout
  have hstatic := hdirs.static hfresh.active
  have hget := Active.current h hold
  have hconfining := hfresh.confining h
  constructor
  · intro hclean performed a rest hsplit hmakes hleft hbound
    have hlead : performed <+: loadScript image := ⟨_, hsplit.symm⟩
    obtain ⟨mid, cells', tables', hrun, hmid, hcard⟩ :=
      hconfining.performsAll (l := Loader.entered
        ⟨memChangePageDir vm oldPageDir, entry, []⟩ image pageDir) hlayout hstatic
        (fun access hmem => loadScript_bounded image access (hlead.subset hmem))
        (hinside.2 performed hlead hmakes) hmakes
    have hnone : mid.vm.frames.free.card = 0 := hcard.trans hleft
    have hpage := mapNewPage_outOfMemory a hnone (by
      rw [hmid.max, hmid.statics.pageFrameMin]
      exact hbound)
    obtain ⟨hno, -, hactive⟩ :=
      hclean performed rest mid ⟨a, mid, hsplit, hrun, hpage⟩
    have hframes : mid.vm.frames = vm.frames := (runAll_noMap hno hrun).1
    rw [hframes] at hnone
    exact ⟨hnone, fun hrest => (hactive hrest).trans hget⟩
  · rintro hclean performed rest mid ⟨a, last, hsplit, hrun, hpage⟩
    have hlead : performed <+: loadScript image := ⟨_, hsplit.symm⟩
    have hbounded : ∀ access ∈ performed, access.Bounded :=
      fun access hmem => loadScript_bounded image access (hlead.subset hmem)
    have hmakes := hconfining.makes_of_ok (l := Loader.entered
      ⟨memChangePageDir vm oldPageDir, entry, []⟩ image pageDir) hlayout hstatic
      hbounded (fun front hfront => hinside.2 front (hfront.trans hlead)) hrun
    have hall := hinside.2 performed hlead hmakes
    obtain ⟨mid', cells', tables', hrun', hmid, hcard⟩ :=
      hconfining.performsAll (l := Loader.entered
        ⟨memChangePageDir vm oldPageDir, entry, []⟩ image pageDir) hlayout hstatic
        hbounded hall hmakes
    obtain rfl : mid' = mid := by
      rw [hrun] at hrun'
      exact (Prod.mk.inj hrun').2.symm
    have hmin : 0 < mid'.vm.frames.pageFrameMin := by
      rw [hmid.statics.pageFrameMin]
      exact hdirs.min_pos
    obtain ⟨-, hnone, hbound⟩ := free_of_outOfMemory hmin hpage
    rw [hmid.max, hmid.statics.pageFrameMin] at hbound
    obtain ⟨hzero, hstack⟩ :=
      hclean performed a rest hsplit hmakes (hcard.symm.trans hnone) hbound
    have hsame := hconfining.exhausted (l := Loader.entered
      ⟨memChangePageDir vm oldPageDir, entry, []⟩ image pageDir) hbounded hall
      hzero
    rw [hrun] at hsame
    have hvm : mid'.vm = memChangePageDir vm pageDir := hsame
    refine ⟨fun b hmem => ?_, fun page => ?_, fun hrest => ?_⟩
    · have hlt : vm.frames.allocated.card < mid'.vm.frames.allocated.card :=
        (runAll_takesFrames hrun).2 b hmem
      rw [hvm] at hlt
      exact lt_irrefl _ hlt
    · rw [hvm]
      rfl
    · rw [hget]
      exact hstack hrest

end

end

/-- The kernel image of the sample with two free frames. -/
def smallBoot : Vm :=
  bootState 0xC0101000 0xC0200000 0xC0300000 0x303000 (fun _ _ => 0)

theorem smallBoot_run :
    VmmCall.run (memChangePageDir smallBoot smallBoot.initialPageDir)
      .newPageDir = .ok (0xC0201000, addPageDir smallBoot 1) := by
  have hunused : unusedPageDir (memChangePageDir smallBoot
      smallBoot.initialPageDir) = some 1 := by decide +kernel
  simp only [VmmCall.run, vmmNewPageDir_some hunused]
  rfl

theorem smallBoot_newPageDir :
    VmmRun MapsUnused smallBoot [0xC0201000] (addPageDir smallBoot 1) := by
  have hmay : MapsUnused smallBoot [] smallBoot.initialPageDir .newPageDir :=
    trivial
  exact .call .boot (.inl rfl) hmay smallBoot_run

theorem smallDirectory_fresh :
    Fresh (addPageDir smallBoot 1) [0xC0201000] 0xC0201000 where
  active := .inr (List.mem_singleton.2 rfl)
  self := by
    have hrow := addPageDir_row (i := 1)
      (bootState_layout kernelImage_sample : Layout smallBoot) (by decide) 1023
    rw [if_pos rfl] at hrow
    have hentry : (addPageDir smallBoot 1).word (staticFrame 0xC0201000) 1023 =
        selfEntry 0xC0201000 := hrow
    unfold Points
    rw [hentry]
    exact selfEntry_points
  user x hx := by
    have hrow := addPageDir_row (i := 1)
      (bootState_layout kernelImage_sample : Layout smallBoot) (by decide) x
    rw [if_neg (by omega), if_neg (by omega)] at hrow
    have hentry : (addPageDir smallBoot 1).word (staticFrame 0xC0201000) x = 0 :=
      hrow
    rw [hentry]

theorem smallBoot_range :
    (addPageDir smallBoot 1).frames.pageFrameMin = 0x301 ∧
      (addPageDir smallBoot 1).frames.pageFrameMax = 0x303 ∧
      ∀ frame, (addPageDir smallBoot 1).frames.physicalMemoryBitmap.bit frame =
        false := by
  have hframes : (addPageDir smallBoot 1).frames =
      bootFrames 0xC0300000 0x303000 := rfl
  have hmin : (bootFrames 0xC0300000 0x303000).pageFrameMin =
      (0xC0300000 - kernelStart) / 0x1000 + 1 :=
    (bootFrames_min 0x303000 (by decide) (by decide)).1
  rw [hframes, hmin]
  refine ⟨by decide, rfl, fun frame => ?_⟩
  unfold ByteStore.bit
  simp [bootFrames, pmmInit]

theorem smallBoot_free : (addPageDir smallBoot 1).frames.free.card = 2 := by
  obtain ⟨hmin, hmax, hbits⟩ := smallBoot_range
  have hnum : numPageFrames = 65536 := by norm_num [numPageFrames]
  have hfree : (addPageDir smallBoot 1).frames.free = {0x301, 0x302} := by
    ext frame
    rw [Frames.mem_free, hmin, hmax, hbits, Finset.mem_insert,
      Finset.mem_singleton]
    constructor
    · rintro ⟨-, hlow, hhigh, -⟩
      omega
    · intro hframe
      exact ⟨by omega, by omega, by omega, rfl⟩
  rw [hfree]
  rfl

theorem sampleImage_accesses :
    (∀ access ∈ loadScript (sampleImage 0x8048000),
        access.Inside 4294967296) ∧
      ∀ vaddr ∈ [0x8048000, 0xC0000000],
        mapCount (loadScript (sampleImage vaddr)) = 2 := by
  decide +kernel

theorem sampleImage_staysInUserHalf
    (vm : Vm) (pageDir : ℕ) :
    StaysInUserHalf (sampleImage 0x8048000) vm pageDir :=
  ⟨by norm_num, fun _ hlead _ access hmem =>
    sampleImage_accesses.1 access (hlead.subset hmem)⟩

/-- Both frames have been given, and the new directory is still empty. -/
theorem smallBoot_exhausted :
    ∃ vm, VmmRun MapsUnused smallBoot [0xC0201000] vm ∧
      Fresh vm [0xC0201000] 0xC0201000 ∧ vm.frames.free.card = 0 ∧
      pmmAllocPageFrame vm.frames = .ok (0, vm.frames) := by
  obtain ⟨hmin, hmax, -⟩ := smallBoot_range
  have hfree := smallBoot_free
  have hfirst := Frames.hasFree (Nat.lt_of_lt_of_eq Nat.two_pos hfree.symm)
  obtain ⟨phys, frames, halloc⟩ := hfirst.alloc
  have htakes := pmmAllocPageFrame_takes halloc
    (hfirst.alloc_ne_zero (by rw [hmin]; decide) halloc)
  have hcard := htakes.card_free
  have hsecond : HasFree frames := Frames.hasFree (by omega)
  obtain ⟨phys', last, halloc'⟩ := hsecond.alloc
  have htakes' := pmmAllocPageFrame_takes halloc'
    (hsecond.alloc_ne_zero (by rw [htakes.min, hmin]; decide) halloc')
  have hcard' := htakes'.card_free
  have hactive : Active (addPageDir smallBoot 1) [0xC0201000] 0xC0201000 :=
    smallDirectory_fresh.active
  have hrun := takeFrame (takeFrame smallBoot_newPageDir hactive halloc)
    hactive halloc'
  have hnone : last.free.card = 0 := by omega
  refine ⟨_, hrun, ⟨hactive, smallDirectory_fresh.self,
    smallDirectory_fresh.user⟩, hnone, ?_⟩
  refine (pmmAllocPageFrame_none hnone ?_).1 ?_
  · rw [htakes'.min, htakes'.max, htakes.min, htakes.max, hmin, hmax]
    decide
  · rw [htakes'.max, htakes.max, hmax]
    decide

theorem Makes.noMap
    {vm : Vm} {dir : ℕ} {cells : ℕ → Cell} {tables : Finset ℕ}
    {script : List Access} (h : Makes vm dir cells tables 0 script) (a : ℕ) :
    .map a ∉ script := by
  induction script generalizing cells tables with
  | nil => exact List.not_mem_nil
  | cons access rest ih =>
      obtain ⟨hmade, hrest⟩ := h
      intro hmem
      rcases List.mem_cons.1 hmem with rfl | hlater
      · exact absurd hmade.1 (lt_irrefl 0)
      · cases access with
        | read offset => exact ih hrest hlater
        | map virtAddr => exact absurd hmade.1 (lt_irrefl 0)
        | write virtAddr value => exact ih hrest hlater

end Elf

end ClOs
