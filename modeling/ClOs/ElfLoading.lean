import ClOs.ElfMemory

/-!
# Loaded images

With a free frame for every page and every page table `elf_load` plays the script
of its image.  It returns 0 with every byte in its place exactly when each page of
a segment has been mapped by the time the segment is written and is not mapped
again.
-/

namespace ClOs

namespace Elf

open Memory Stopping

/-! ## Accesses -/

/-- The frames that the pages of a script take, with those of the page tables
that are not there yet. -/
def framesNeeded : List Access → Finset ℕ → ℕ
  | [], _ => 0
  | .map virtAddr :: script, tables =>
      1 + (if virtAddr / 0x400000 ∈ tables then 0 else 1) +
        framesNeeded script (insert (virtAddr / 0x400000) tables)
  | _ :: script, tables => framesNeeded script tables

def Access.User : Access → Prop
  | .read _ => True
  | .map virtAddr => virtAddr < kernelStart
  | .write virtAddr value => virtAddr < kernelStart ∧ value < 256

section

variable {start vm : Vm} {live : List ℕ} {pageDir : ℕ} {cells : ℕ → Cell}
  {tables : Finset ℕ} {l : Loader}

theorem mapNewPage_ok
    {virtAddr phys : ℕ} {frames : Frames} {next : Vm}
    (halloc : pmmAllocPageFrame l.vm.frames = .ok (phys, frames))
    (hphys : phys ≠ 0)
    (hmap : memMapPage virtAddr phys pageFlags { l.vm with frames := frames } =
      .ok next) :
    mapNewPage virtAddr l =
      (.ok (), { l with vm := next, trace := l.trace ++ [.map virtAddr] }) := by
  unfold mapNewPage
  refine (bind_ok (?_ : _ = (Except.ok phys,
    { l with vm := { l.vm with frames := frames } }))).trans ?_
  · simp only [onVm, halloc, bind, Except.bind, pure, Except.pure]
  rw [if_neg hphys]
  have hpage : onVm (fun vm => do
      return ((), ← memMapPage virtAddr phys pageFlags vm))
        { l with vm := { l.vm with frames := frames } } =
          (.ok (), { l with vm := next }) := by
    simp only [onVm, hmap, bind, Except.bind, pure, Except.pure]
  rw [bind_ok hpage]
  rfl

theorem writeByte_ok
    {virtAddr value : ℕ} {next : Vm}
    (hstore : storeByte virtAddr value l.vm = .ok next) :
    writeByte virtAddr value l =
      (.ok (), { l with
        vm := next
        trace := l.trace ++ [.write virtAddr value] }) := by
  have hbyte : onVm (fun vm => do
      return ((), ← storeByte virtAddr value vm)) l =
        (.ok (), { l with vm := next }) := by
    simp only [onVm, hstore, bind, Except.bind, pure, Except.pure]
  unfold writeByte
  rw [bind_ok hbyte]
  rfl

theorem writeByte_error
    {virtAddr value : ℕ} {halt : Halt}
    (hstore : storeByte virtAddr value l.vm = .error halt) :
    writeByte virtAddr value l = (.error (.halt halt), l) := by
  have hbyte : onVm (fun vm => do
      return ((), ← storeByte virtAddr value vm)) l =
        (.error (.halt halt), l) := by
    simp only [onVm, hstore, bind, Except.bind]
  unfold writeByte
  rw [bind_error hbyte]

/-! ## Steps -/

theorem Loading.performMap
    (h : Loading start live pageDir cells tables l.vm) {virtAddr : ℕ}
    {script : List Access} (huser : virtAddr < kernelStart)
    (hfree : framesNeeded (.map virtAddr :: script) tables ≤
      l.vm.frames.free.card) :
    ∃ next, perform (.map virtAddr) l = (.ok (), next) ∧
      Loading start live pageDir (Cell.step cells (.map virtAddr))
        (insert (virtAddr / 0x400000) tables) next.vm ∧
      framesNeeded script (insert (virtAddr / 0x400000) tables) ≤
        next.vm.frames.free.card := by
  unfold framesNeeded at hfree
  have hhas : HasFree l.vm.frames := Frames.hasFree (by omega)
  obtain ⟨phys, frames, halloc⟩ := hhas.alloc
  have hphys := hhas.alloc_ne_zero h.apart.directories.min_pos halloc
  have htakes := pmmAllocPageFrame_takes halloc hphys
  have hcard := htakes.card_free
  obtain ⟨next, hmap, hloading, hleft⟩ := h.map huser htakes
    (pmmAllocPageFrame_lt halloc) halloc (fun hnew => by
      rw [if_neg hnew] at hfree
      omega)
  exact ⟨_, mapNewPage_ok halloc hphys hmap, hloading, by
    simp only
    omega⟩

theorem Loading.storeByte_eq
    (h : Loading start live pageDir cells tables vm) (a value : ℕ) :
    storeByte a value vm =
      match translate vm.word (staticFrame pageDir) (a / 0x1000) with
      | none => .error .pageFault
      | some (frame, _) => .ok (vm.setByte frame (a % 0x1000) value) := by
  have hcr3 : vm.cr3 / 0x1000 = staticFrame pageDir := by
    rw [h.cr3]
    rfl
  unfold storeByte
  generalize vm.cr3 / 0x1000 = dir at hcr3 ⊢
  subst hcr3
  rfl

theorem Loading.performWrite
    (h : Loading start live pageDir cells tables l.vm) {a value : ℕ}
    (ha : a < kernelStart) (hvalue : value < 256) (hcell : cells a ≠ .unmapped) :
    ∃ next, perform (.write a value) l = (.ok (), next) ∧
      Loading start live pageDir (Cell.step cells (.write a value)) tables
        next.vm ∧
      next.vm.frames = l.vm.frames := by
  obtain ⟨frame, hwalk⟩ := (h.cells a ha).mapped hcell
  have hstore := h.storeByte_eq a value
  rw [hwalk] at hstore
  exact ⟨_, writeByte_ok hstore, h.setByte ha hvalue hwalk, rfl⟩

theorem Loading.performFault
    (h : Loading start live pageDir cells tables l.vm) {a value : ℕ}
    (ha : a < kernelStart) (hcell : cells a = .unmapped) :
    perform (.write a value) l = (.error (.halt .pageFault), l) := by
  have hwalk := h.cells a ha
  rw [hcell] at hwalk
  have hnone : translate l.vm.word (staticFrame pageDir) (a / 0x1000) = none :=
    hwalk
  have hstore := h.storeByte_eq a value
  rw [hnone] at hstore
  exact writeByte_error hstore

/-- A script ends in the cells that it is replayed to, or at its first write to a
page that is not mapped. -/
theorem Loading.runAll
    {script : List Access} (h : Loading start live pageDir cells tables l.vm)
    (huser : ∀ access ∈ script, access.User)
    (hfree : framesNeeded script tables ≤ l.vm.frames.free.card) :
    (Plays cells script → ∃ next tables',
      Stopping.runAll perform script l = (.ok (), next) ∧
        Loading start live pageDir (replay cells script) tables' next.vm) ∧
      (¬Plays cells script → ∃ next,
        Stopping.runAll perform script l = (.error (.halt .pageFault), next)) := by
  induction script generalizing cells tables l with
  | nil => exact ⟨fun _ => ⟨l, tables, rfl, h⟩, fun hnot => absurd trivial hnot⟩
  | cons access script ih =>
      have hrest : ∀ other ∈ script, other.User :=
        fun other hother => huser other (List.mem_cons_of_mem _ hother)
      have haccess := huser access (List.mem_cons_self ..)
      have hstep : ∀ {mid : Loader} {tables' : Finset ℕ},
          perform access l = (.ok (), mid) →
          Loading start live pageDir (Cell.step cells access) tables' mid.vm →
          framesNeeded script tables' ≤ mid.vm.frames.free.card →
          (∀ a value, access = .write a value → cells a ≠ .unmapped) →
          (Plays cells (access :: script) → ∃ next tables',
            Stopping.runAll perform (access :: script) l = (.ok (), next) ∧
              Loading start live pageDir (replay cells (access :: script)) tables'
                next.vm) ∧
            (¬Plays cells (access :: script) → ∃ next,
              Stopping.runAll perform (access :: script) l =
                (.error (.halt .pageFault), next)) := by
        intro mid tables' hperform hloading hneeded hwrites
        obtain ⟨hplays, hfaults⟩ := ih hloading hrest hneeded
        rw [Stopping.runAll, bind_ok hperform]
        exact ⟨fun hall => hplays hall.2,
          fun hnot => hfaults fun hall => hnot ⟨hwrites, hall⟩⟩
      cases access with
      | read offset =>
          refine hstep rfl h hfree ?_
          intro a value hsame
          cases hsame
      | map virtAddr =>
          obtain ⟨mid, hperform, hloading, hneeded⟩ :=
            h.performMap haccess hfree
          refine hstep hperform hloading hneeded ?_
          intro a value hsame
          cases hsame
      | write a value =>
          obtain ⟨ha, hvalue⟩ := haccess
          by_cases hcell : cells a = .unmapped
          · have hfault : perform (.write a value) l =
                (.error (.halt .pageFault), l) := h.performFault ha hcell
            refine ⟨fun hall => absurd hcell (hall.1 a value rfl), fun _ => ?_⟩
            rw [Stopping.runAll, bind_error hfault]
            exact ⟨l, rfl⟩
          · obtain ⟨mid, hperform, hloading, hframes⟩ :=
              h.performWrite ha hvalue hcell
            refine hstep hperform hloading (by rwa [hframes]) ?_
            rintro b other hsame
            cases hsame
            exact hcell

/-! ## The whole load -/

def loadScript (image : ByteStore) : List Access :=
  segmentsScript image 0 (phnum image) ++ [.map (stackElfStart - 0x1000)]

/-- A load whose script is played to its end returns 0. -/
theorem elfLoad_ends
    {image : ByteStore} {next : Loader} (haccepts : Accepts image)
    (hrun : Stopping.runAll perform (loadScript image) (l.entered image pageDir) =
      (.ok (), next)) :
    elfLoad image pageDir l = (.ok 0, { next with
      vm := memChangePageDir next.vm (memGetCurrentPageDir l.vm) }) := by
  rw [elfLoad_eq haccepts]
  unfold loadScript at hrun
  rw [runAll_append] at hrun
  have hperforms : Performs perform
      (loadSegments image (phoff image) (phnum image) 0)
      (segmentsScript image 0 (phnum image)) () :=
    loadSegments_performs (phnum image) 0
  have hsegments := hperforms (l.entered image pageDir)
  cases hrest : Stopping.runAll perform (segmentsScript image 0 (phnum image))
      (l.entered image pageDir) with
  | mk outcome mid =>
      cases outcome with
      | error reason =>
          rw [bind_error hrest] at hrun
          cases hrun
      | ok done =>
          rw [bind_ok hrest] at hrun hsegments
          rw [runAll_singleton] at hrun
          have hpage : mapNewPage (stackElfStart - 0x1000) mid =
              (.ok (), next) := hrun
          have hstack : mapStack (memGetCurrentPageDir l.vm) mid = (.ok 0,
              { next with
                vm := memChangePageDir next.vm
                  (memGetCurrentPageDir l.vm) }) := by
            unfold mapStack onOutOfMemory
            rw [bind_ok hpage]
            rfl
          unfold afterSegments onOutOfMemory
          rw [bind_ok hsegments, hstack]

theorem elfLoad_faults
    {image : ByteStore} {next : Loader} {halt : Halt}
    (haccepts : Accepts image)
    (hrun : Stopping.runAll perform (loadScript image) (l.entered image pageDir) =
      (.error (.halt halt), next)) :
    elfLoad image pageDir l = (.error (.halt halt), next) := by
  rw [elfLoad_eq haccepts]
  unfold loadScript at hrun
  rw [runAll_append] at hrun
  have hperforms : Performs perform
      (loadSegments image (phoff image) (phnum image) 0)
      (segmentsScript image 0 (phnum image)) () :=
    loadSegments_performs (phnum image) 0
  have hsegments := hperforms (l.entered image pageDir)
  cases hrest : Stopping.runAll perform (segmentsScript image 0 (phnum image))
      (l.entered image pageDir) with
  | mk outcome mid =>
      cases outcome with
      | error reason =>
          rw [bind_error hrest] at hrun hsegments
          cases hrun
          unfold afterSegments onOutOfMemory
          rw [bind_error hsegments]
      | ok done =>
          rw [bind_ok hrest] at hrun hsegments
          rw [runAll_singleton] at hrun
          have hpage : mapNewPage (stackElfStart - 0x1000) mid =
              (.error (.halt halt), next) := hrun
          have hstack : mapStack (memGetCurrentPageDir l.vm) mid =
              (.error (.halt halt), next) := by
            unfold mapStack onOutOfMemory
            rw [bind_error hpage]
          unfold afterSegments onOutOfMemory
          rw [bind_ok hsegments, hstack]

end

/-! ## Well-formed images -/

/-- An accepted image in a buffer, with segments that lie in the file, below the
stack and apart from each other. -/
structure WellFormed (image : ByteStore) (size : ℕ) : Prop where
  accepts : Accepts image
  bounded : size < 4294967296
  filesz : ∀ k < phnum image, IsLoad image (headerAt image k) →
    (segment image k).filesz ≤ (segment image k).memsz
  file : ∀ k < phnum image, IsLoad image (headerAt image k) →
    (segment image k).offset + (segment image k).filesz ≤ size
  below : ∀ k < phnum image, IsLoad image (headerAt image k) →
    (segment image k).vaddr + (segment image k).memsz ≤ stackElfStart - 0x1000
  apart : ∀ j < phnum image, ∀ k < phnum image, j ≠ k → ∀ a,
    Holds image j a → ¬Holds image k a

/-- Every byte of every segment is mapped for the user and is the byte of the
file, or 0 behind the file. -/
def Loaded (image : ByteStore) (pageDir : ℕ) (vm : Vm) : Prop :=
  ∀ k < phnum image, IsLoad image (headerAt image k) →
    ∀ i < (segment image k).memsz, ∃ frame pde pte,
      translate vm.word (staticFrame pageDir)
          (((segment image k).vaddr + i) / 0x1000) = some (frame, pde, pte) ∧
        pde.testBit 2 = true ∧ pte.testBit 2 = true ∧
        vm.byte frame (((segment image k).vaddr + i) % 0x1000) =
          if i < (segment image k).filesz then
            (image ((segment image k).offset + i)).toNat
          else 0

/-- `elf_load` returns 0 with the image loaded. -/
def LoadsRight (image : ByteStore) (pageDir : ℕ) (l : Loader) : Prop :=
  ∃ next, elfLoad image pageDir l = (.ok 0, next) ∧
    Loaded image pageDir next.vm

/-- Each page with a byte of a segment has been mapped by the time the segment is
written, and it is not mapped again. -/
def PagesHold (image : ByteStore) : Prop :=
  ∀ k < phnum image, ∀ a, Holds image k a →
    (∃ j ≤ k, Covers image j (a / 0x1000)) ∧
      ∀ j, k < j → j < phnum image → ¬Covers image j (a / 0x1000)

section

variable {image : ByteStore} {size : ℕ}

theorem WellFormed.segmentsApart
    (h : WellFormed image size) : SegmentsApart image 0 (phnum image) where
  fits k _ hk hload := by
    have hstack : stackElfStart - 0x1000 = 3221217280 := rfl
    have hbelow := h.below k (by omega) hload
    exact ⟨h.filesz k (by omega) hload, by omega⟩
  apart j k _ hj _ hk hne a := h.apart j (by omega) k (by omega) hne a

/-- The pages of a segment begin below its end. -/
theorem pages_lt
    {memsz x : ℕ} (hmemsz : memsz < 0xFFFFF000)
    (hx : x < ceilDiv memsz 0x1000) : x * 0x1000 < memsz := by
  have hdiv : ceilDiv memsz 0x1000 = (memsz + 0xFFF) / 0x1000 := by
    unfold ceilDiv
    rw [u32_of_lt (by omega), sub32_of_le (by omega) (by omega)]
    omega
  rw [hdiv] at hx
  omega

theorem WellFormed.user
    (h : WellFormed image size) :
    ∀ access ∈ loadScript image, access.User := by
  have hstack : stackElfStart - 0x1000 = 3221217280 := rfl
  have hstart : kernelStart = 3221225472 := rfl
  intro access hmem
  rcases List.mem_append.1 hmem with hsegments | hpage
  · obtain ⟨k, -, hk, hheader⟩ := mem_segmentsScript.1 hsegments
    rcases mem_headerScript hheader with ⟨i, -, rfl⟩ | ⟨hload, hscript⟩
    · trivial
    · have hbelow := h.below k (by omega) hload
      have hfilesz := h.filesz k (by omega) hload
      unfold segment at hbelow hfilesz
      unfold Segment.script at hscript
      rcases List.mem_append.1 hscript with hmaps | hwrites
      · obtain ⟨x, hx, rfl⟩ := mem_mapScript.1 hmaps
        have hpage := pages_lt (by omega) hx
        rw [u32_of_lt (by omega)]
        change _ < kernelStart
        omega
      · rcases List.mem_append.1 hwrites with hcopy | hzero
        · obtain ⟨i, hi, rfl | rfl⟩ := mem_copyScript.1 hcopy
          · trivial
          · rw [u32_of_lt (by omega)]
            exact ⟨by omega, UInt8.toNat_lt _⟩
        · obtain ⟨i, hi, rfl⟩ := mem_zeroScript.1 hzero
          rw [u32_of_lt (by omega : (segmentAt image (headerAt image k)).vaddr +
            (segmentAt image (headerAt image k)).filesz < 4294967296),
            u32_of_lt (by omega)]
          exact ⟨by omega, by norm_num⟩
  · obtain rfl := List.mem_singleton.1 hpage
    change stackElfStart - 0x1000 < kernelStart
    omega

theorem WellFormed.plays
    (h : WellFormed image size) :
    Plays (fun _ => .unmapped) (loadScript image) ↔
      ∀ k < phnum image, ∀ a, Holds image k a →
        ∃ j ≤ k, Covers image j (a / 0x1000) := by
  have hstack : ∀ cells : ℕ → Cell,
      Plays cells [.map (stackElfStart - 0x1000)] ↔ True := fun cells =>
    iff_true_intro ⟨nofun, trivial⟩
  unfold loadScript
  rw [plays_append, hstack, and_true, h.segmentsApart.plays]
  constructor
  · intro hall k hk a hholds
    rcases hall k (Nat.zero_le _) (by omega) a hholds with
      ⟨j, -, hj, hcovers⟩ | hmapped
    · exact ⟨j, hj, hcovers⟩
    · exact absurd rfl hmapped
  · intro hall k _ hk a hholds
    obtain ⟨j, hj, hcovers⟩ := hall k (by omega) a hholds
    exact .inl ⟨j, Nat.zero_le _, hj, hcovers⟩

open Classical in
theorem WellFormed.replay_byte
    (h : WellFormed image size) (cells : ℕ → Cell) {k a : ℕ}
    (hk : k < phnum image) (hholds : Holds image k a) :
    replay cells (loadScript image) a =
      if ∃ j, k < j ∧ j < phnum image ∧ Covers image j (a / 0x1000) then .fresh
      else .written ((segment image k).content image a) := by
  have hstack : stackElfStart - 0x1000 = 3221217280 := rfl
  have hbelow := h.below k hk hholds.1
  have hbyte := hholds.2.2
  unfold loadScript
  rw [replay_append]
  change Cell.step (replay cells (segmentsScript image 0 (phnum image)))
    (.map (stackElfStart - 0x1000)) a = _
  rw [Cell.step_map, if_neg (by omega), h.segmentsApart.replay_byte
    (Nat.zero_le _) (by omega) hholds, Nat.zero_add]

end

/-! ## What the free frames hold -/

/-- Words that differ from those of a state in the free frames only. -/
structure Refills (vm : Vm) (word : ℕ → ℕ → ℕ) : Prop where
  kept : ∀ frame ∉ vm.frames.free, word frame = vm.word frame
  bounded : ∀ frame ∈ vm.frames.free, ∀ j, word frame j < 4294967296

def refill (vm : Vm) (value : ℕ) : ℕ → ℕ → ℕ := fun frame j =>
  if frame ∈ vm.frames.free then value * 0x1010101 else vm.word frame j

section

variable {vm : Vm} {live : List ℕ} {pageDir : ℕ} {word : ℕ → ℕ → ℕ}

theorem refill_refills
    (vm : Vm) {value : ℕ} (hvalue : value < 256) :
    Refills vm (refill vm value) where
  kept frame hframe := by
    funext j
    rw [refill, if_neg hframe]
  bounded frame hframe j := by
    rw [refill, if_pos hframe]
    omega

theorem refill_byte
    (vm : Vm) {value frame : ℕ} (hvalue : value ≤ 1)
    (hframe : frame ∈ vm.frames.free) (offset : ℕ) :
    (vm.withWord (refill vm value)).byte frame offset = value := by
  unfold Vm.byte
  rw [Vm.withWord_word, refill, if_pos hframe]
  have hlane : offset % 4 < 4 := Nat.mod_lt _ (by norm_num)
  interval_cases value <;> interval_cases offset % 4 <;> norm_num

theorem Refills.row
    (hrefills : Refills vm word) (h : Memory.Apart vm live)
    (hactive : Active vm live pageDir) :
    word (staticFrame pageDir) = vm.word (staticFrame pageDir) := by
  refine hrefills.kept _ fun hmem => ?_
  obtain ⟨-, hlow, -, -⟩ := Frames.mem_free.1 hmem
  have hlt := h.directories.layout.frame_lt _ (h.directories.dirFrame hactive)
  omega

theorem Refills.table
    (hrefills : Refills vm word) (h : Memory.Apart vm live) {table : ℕ}
    (htable : IsTable vm live table) : word table = vm.word table := by
  refine hrefills.kept _ fun hmem => ?_
  obtain ⟨-, -, -, hclear⟩ := Frames.mem_free.1 hmem
  rw [(h.table table htable).2] at hclear
  cases hclear

theorem Refills.apart
    (hrefills : Refills vm word) (h : Memory.Apart vm live) :
    Memory.Apart (vm.withWord word) live := by
  have hstatics : SameStatics vm (vm.withWord word) := ⟨rfl, rfl, rfl⟩
  refine h.copies (h.directories.congr hstatics (fun _ hused => hused) ?_)
    hstatics rfl ?_ ?_ ?_
  · intro P hP x
    exact congrFun (hrefills.row h hP) x
  · exact fun x _ => congrFun (hrefills.row h (.inl rfl)) x
  · exact fun P hP x _ t hat =>
      .inl ⟨hP, hat.congr (congrFun (hrefills.row h hP) x).symm⟩
  · exact fun t ht j => congrFun (hrefills.table h ht) j

/-- A directory that maps itself and has no page of the user half. -/
structure Fresh (vm : Vm) (live : List ℕ) (pageDir : ℕ) : Prop where
  active : Active vm live pageDir
  self : Points vm.word (staticFrame pageDir) 1023 (staticFrame pageDir)
  user : ∀ x < 768, vm.word (staticFrame pageDir) x % 2 = 0

theorem Fresh.refill
    (hfresh : Fresh vm live pageDir) (h : Memory.Apart vm live)
    (hrefills : Refills vm word) : Fresh (vm.withWord word) live pageDir := by
  have hrow := hrefills.row h hfresh.active
  refine ⟨hfresh.active, ?_, ?_⟩
  · rw [Vm.withWord_word]
    exact hfresh.self.congr (congrFun hrow 1023)
  · rw [Vm.withWord_word, hrow]
    exact hfresh.user

/-- The state in which the segments of a fresh directory are loaded. -/
theorem Fresh.loading
    (hfresh : Fresh vm live pageDir) (h : Memory.Apart vm live) :
    Loading vm live pageDir (fun _ => .unmapped) ∅
      (memChangePageDir vm pageDir) where
  apart := h.change pageDir
  active := hfresh.active
  cr3 := rfl
  self := hfresh.self
  user x hx hpresent := by
    have habsent := hfresh.user x hx
    have hpresent : vm.word (staticFrame pageDir) x % 2 = 1 := hpresent
    omega
  tables x hx := by
    have habsent := hfresh.user x hx
    change x ∈ ∅ ↔ vm.word (staticFrame pageDir) x % 2 = 1
    simp [habsent]
  free frame hframe := ⟨hframe, rfl⟩
  cells a ha := by
    have hstart : kernelStart = 3221225472 := rfl
    exact translate_absent (hfresh.user _ (by omega))

/-! ## Right loads -/

variable {image : ByteStore} {size : ℕ} {l : Loader}

theorem WellFormed.ends
    (hwell : WellFormed image size) (h : Memory.Apart vm live)
    (hfresh : Fresh vm live pageDir)
    (hneeded : framesNeeded (loadScript image) ∅ ≤ vm.frames.free.card)
    (hstart : memChangePageDir l.vm pageDir = memChangePageDir vm pageDir) :
    (Plays (fun _ => .unmapped) (loadScript image) → ∃ next,
      elfLoad image pageDir l = (.ok 0, next) ∧ ∀ a < kernelStart,
        Shows vm next.vm (staticFrame pageDir) a
          (replay (fun _ => .unmapped) (loadScript image) a)) ∧
      (¬Plays (fun _ => .unmapped) (loadScript image) → ∃ last,
        elfLoad image pageDir l = (.error (.halt .pageFault), last)) := by
  have hloading : Loading vm live pageDir (fun _ => .unmapped) ∅
      (l.entered image pageDir).vm := by
    have henter := hfresh.loading h
    rw [← hstart] at henter
    exact henter
  have hcard : (l.entered image pageDir).vm.frames = vm.frames := by
    have hframes := congrArg Vm.frames hstart
    exact hframes
  obtain ⟨hplays, hfaults⟩ := hloading.runAll hwell.user (by rwa [hcard])
  constructor
  · intro hall
    obtain ⟨next, tables, hrun, hend⟩ := hplays hall
    exact ⟨_, elfLoad_ends hwell.accepts hrun, hend.cells⟩
  · intro hnot
    obtain ⟨next, hrun⟩ := hfaults hnot
    exact ⟨next, elfLoad_faults hwell.accepts hrun⟩

theorem WellFormed.content
    (hwell : WellFormed image size) {k i : ℕ} (hk : k < phnum image)
    (hload : IsLoad image (headerAt image k)) :
    (segment image k).content image ((segment image k).vaddr + i) =
      if i < (segment image k).filesz then
        (image ((segment image k).offset + i)).toNat
      else 0 := by
  have hfile := hwell.file k hk hload
  have hbounded := hwell.bounded
  unfold Segment.content
  rw [Nat.add_sub_cancel_left]
  split_ifs with hi
  · rw [u32_of_lt (by omega)]
  · rfl

end

/-! ## Runs -/

section

variable {initialPageDir pageDirs kernelEnd memHigh pageDir oldPageDir : ℕ}
  {memory : ℕ → ℕ → ℕ} {vm : Vm} {live : List ℕ} {image : ByteStore}
  {size entry : ℕ}

/-- A load into a fresh directory of the words of a state. -/
theorem WellFormed.refilled
    (hwell : WellFormed image size) (h : Memory.Apart vm live)
    (hfresh : Fresh vm live pageDir)
    (hneeded : framesNeeded (loadScript image) ∅ ≤ vm.frames.free.card)
    {word : ℕ → ℕ → ℕ} (hrefills : Refills vm word) (oldPageDir entry : ℕ) :
    (Plays (fun _ => .unmapped) (loadScript image) → ∃ next,
      elfLoad image pageDir
          ⟨memChangePageDir (vm.withWord word) oldPageDir, entry, []⟩ =
        (.ok 0, next) ∧ ∀ a < kernelStart,
          Shows (vm.withWord word) next.vm (staticFrame pageDir) a
            (replay (fun _ => .unmapped) (loadScript image) a)) ∧
      (¬Plays (fun _ => .unmapped) (loadScript image) → ∃ last,
        elfLoad image pageDir
            ⟨memChangePageDir (vm.withWord word) oldPageDir, entry, []⟩ =
          (.error (.halt .pageFault), last)) :=
  hwell.ends (hrefills.apart h) (hfresh.refill h hrefills) hneeded rfl

theorem WellFormed.loadsRight
    (hwell : WellFormed image size) (h : Memory.Apart vm live)
    (hfresh : Fresh vm live pageDir)
    (hneeded : framesNeeded (loadScript image) ∅ ≤ vm.frames.free.card)
    (hpages : PagesHold image) {word : ℕ → ℕ → ℕ} (hrefills : Refills vm word) :
    LoadsRight image pageDir
      ⟨memChangePageDir (vm.withWord word) oldPageDir, entry, []⟩ := by
  have hstart : kernelStart = 3221225472 := rfl
  have hstack : stackElfStart - 0x1000 = 3221217280 := rfl
  obtain ⟨next, hload, hshows⟩ := (hwell.refilled h hfresh hneeded hrefills
    oldPageDir entry).1 (hwell.plays.2 fun k hk a hholds =>
      (hpages k hk a hholds).1)
  refine ⟨next, hload, fun k hk his i hi => ?_⟩
  have hbelow := hwell.below k hk his
  have hholds : Holds image k ((segment image k).vaddr + i) :=
    ⟨his, by omega, by omega⟩
  have hcell := hshows ((segment image k).vaddr + i) (by omega)
  rw [hwell.replay_byte _ hk hholds, if_neg] at hcell
  · obtain ⟨frame, hwalk, hbyte⟩ := hcell
    rw [hwell.content hk his] at hbyte
    exact ⟨frame, 7, 7, hwalk, by decide, by decide, hbyte⟩
  · rintro ⟨j, hkj, hj, hcovers⟩
    exact (hpages k hk _ hholds).2 j hkj hj hcovers

theorem WellFormed.pagesHold
    (hwell : WellFormed image size) (h : Memory.Apart vm live)
    (hfresh : Fresh vm live pageDir)
    (hneeded : framesNeeded (loadScript image) ∅ ≤ vm.frames.free.card)
    (hright : ∀ word, Refills vm word → LoadsRight image pageDir
      ⟨memChangePageDir (vm.withWord word) oldPageDir, entry, []⟩) :
    PagesHold image := by
  have hstart : kernelStart = 3221225472 := rfl
  have hstack : stackElfStart - 0x1000 = 3221217280 := rfl
  have hplays : Plays (fun _ => .unmapped) (loadScript image) := by
    by_contra hnot
    have hrefills := refill_refills vm (by norm_num : 0 < 256)
    obtain ⟨last, hfault⟩ := (hwell.refilled h hfresh hneeded hrefills
      oldPageDir entry).2 hnot
    obtain ⟨next, hload, -⟩ := hright _ hrefills
    rw [hfault] at hload
    cases hload
  intro k hk a hholds
  refine ⟨hwell.plays.1 hplays k hk a hholds, fun j hkj hj hcovers => ?_⟩
  have hvalue : ∃ value ≤ 1, value ≠ (segment image k).content image a := by
    by_cases hzero : (segment image k).content image a = 0
    · exact ⟨1, le_rfl, by omega⟩
    · exact ⟨0, by norm_num, by omega⟩
  obtain ⟨value, hle, hne⟩ := hvalue
  have hrefills := refill_refills vm (by omega : value < 256)
  obtain ⟨next, hload, hshows⟩ := (hwell.refilled h hfresh hneeded hrefills
    oldPageDir entry).1 hplays
  obtain ⟨last, hlast, hloaded⟩ := hright _ hrefills
  rw [hload] at hlast
  obtain rfl : next = last := congrArg Prod.snd hlast
  obtain ⟨his, hlow, hhigh⟩ := hholds
  have hbelow := hwell.below k hk his
  have hcell := hshows a (by omega)
  rw [hwell.replay_byte _ hk ⟨his, hlow, hhigh⟩,
    if_pos ⟨j, hkj, hj, hcovers⟩] at hcell
  obtain ⟨frame, hframe, hwalk, hbyte⟩ := hcell
  rw [Vm.withWord_frames] at hframe
  obtain ⟨other, pde, pte, hwalk', -, -, hbyte'⟩ :=
    hloaded k hk his (a - (segment image k).vaddr) (by omega)
  rw [← hwell.content hk his, Nat.add_sub_cancel' hlow] at hbyte'
  rw [Nat.add_sub_cancel' hlow, hwalk] at hwalk'
  simp only [Option.some.injEq, Prod.mk.injEq] at hwalk'
  rw [← hwalk'.1, hbyte, refill_byte vm hle hframe] at hbyte'
  exact hne hbyte'

/-- Loading a well-formed image into a fresh directory with enough free frames,
whatever they hold. -/
theorem elfLoad_loadsRight_iff
    (himage : KernelImage initialPageDir pageDirs kernelEnd)
    (hrun : VmmRun MapsUnused
      (bootState initialPageDir pageDirs kernelEnd memHigh memory) live vm)
    (hfresh : Fresh vm live pageDir) (hwell : WellFormed image size)
    (hneeded : framesNeeded (loadScript image) ∅ ≤ vm.frames.free.card) :
    (∀ word, Refills vm word → LoadsRight image pageDir
      ⟨memChangePageDir (vm.withWord word) oldPageDir, entry, []⟩) ↔
        PagesHold image := by
  have h := VmmRun.apart himage hrun
  exact ⟨hwell.pagesHold h hfresh hneeded, fun hpages word hrefills =>
    hwell.loadsRight h hfresh hneeded hpages hrefills⟩

end

/-- An image of 92 bytes with one segment: 8 bytes of the file and 8 of zeros. -/
def sampleImage (vaddr : ℕ) : ByteStore := fun i =>
  [0x7F, 0x45, 0x4C, 0x46, 1, 1, 1, 0, 0, 0, 0, 0, 0, 0, 0, 0,
    2, 0, 3, 0, 1, 0, 0, 0,
    byteOf vaddr 0, byteOf vaddr 1, byteOf vaddr 2, byteOf vaddr 3,
    52, 0, 0, 0, 0, 0, 0, 0, 0, 0, 0, 0, 52, 0, 32, 0, 1, 0, 0, 0, 0, 0, 0, 0,
    1, 0, 0, 0, 84, 0, 0, 0,
    byteOf vaddr 0, byteOf vaddr 1, byteOf vaddr 2, byteOf vaddr 3,
    0, 0, 0, 0, 8, 0, 0, 0, 16, 0, 0, 0, 7, 0, 0, 0, 0, 16, 0, 0,
    1, 2, 3, 4, 5, 6, 7, 8].getD i 0

/-- At the start of a page, and across the end of one. -/
def sampleAddresses : List ℕ := [0x8048000, 0x8048FFC]

theorem sampleImage_header :
    ∀ vaddr ∈ sampleAddresses, phnum (sampleImage vaddr) = 1 ∧
      IsLoad (sampleImage vaddr) (headerAt (sampleImage vaddr) 0) ∧
        segment (sampleImage vaddr) 0 = ⟨vaddr, 16, 8, 84⟩ ∧
          ceilDiv 16 0x1000 = 1 ∧ u32 vaddr = vaddr := by
  decide +kernel

theorem sampleImage_accepts
    (vaddr : ℕ) : Accepts (sampleImage vaddr) := by
  refine accepts_of_header ?_ ?_ ?_ ?_ ?_ ?_ ?_
  · rw [u32_of_lt (by norm_num)]
    rfl
  · rw [u32_of_lt (by norm_num)]
    rfl
  · rw [u32_of_lt (by norm_num)]
    rfl
  · rw [u32_of_lt (by norm_num)]
    rfl
  · rw [u32_of_lt (by decide)]
    rfl
  · unfold word16
    rw [u32_of_lt (by norm_num), u32_of_lt (by norm_num)]
    rfl
  · unfold word16
    rw [u32_of_lt (by norm_num), u32_of_lt (by norm_num)]
    rfl

theorem sampleImage_wellFormed
    {vaddr : ℕ} (hvaddr : vaddr ∈ sampleAddresses) :
    WellFormed (sampleImage vaddr) 92 := by
  obtain ⟨hphnum, -, hsegment, -⟩ := sampleImage_header vaddr hvaddr
  have hstack : stackElfStart - 0x1000 = 3221217280 := rfl
  have hlow : vaddr ≤ 0x8048FFC := by
    simp only [sampleAddresses, List.mem_cons, List.not_mem_nil, or_false]
      at hvaddr
    omega
  have hone : ∀ k < phnum (sampleImage vaddr), k = 0 := by
    intro k hk
    rw [hphnum] at hk
    omega
  refine ⟨sampleImage_accepts vaddr, by norm_num, ?_, ?_, ?_, ?_⟩
  · intro k hk _
    rw [hone k hk, hsegment]
    norm_num
  · intro k hk _
    rw [hone k hk, hsegment]
    norm_num
  · intro k hk _
    rw [hone k hk, hsegment]
    simp only
    omega
  · intro j hj k hk hne
    rw [hone j hj, hone k hk] at hne
    exact absurd rfl hne

theorem sampleImage_framesNeeded :
    ∀ vaddr ∈ sampleAddresses,
      framesNeeded (loadScript (sampleImage vaddr)) ∅ = 4 := by
  decide +kernel

/-- The page of the segment at the start of a page is mapped. -/
theorem sampleImage_pagesHold : PagesHold (sampleImage 0x8048000) := by
  obtain ⟨hphnum, hload, hsegment, hceil, hwrap⟩ :=
    sampleImage_header 0x8048000 (by decide)
  intro k hk a hholds
  rw [hphnum] at hk
  obtain rfl : k = 0 := by omega
  refine ⟨⟨0, le_rfl, hload, 0, ?_, ?_⟩, fun j hj hj' => by omega⟩
  · rw [hsegment, hceil]
    norm_num
  · obtain ⟨-, hlow, hhigh⟩ := hholds
    rw [hsegment] at hlow hhigh ⊢
    rw [Nat.zero_mul, Nat.add_zero, hwrap]
    simp only at hlow hhigh ⊢
    omega

/-- The first directory of a run is fresh, and there are enough free frames. -/
theorem firstDirectory_fresh :
    Fresh (addPageDir sampleBoot 1) [0xC0201000] 0xC0201000 where
  active := .inr (List.mem_singleton.2 rfl)
  self := firstDirectory_self
  user x hx := by rw [firstDirectory_user hx]

theorem firstDirectory_free :
    4 ≤ (addPageDir sampleBoot 1).frames.free.card := by
  have hsubset : ({0x400, 0x401, 0x402, 0x403} : Finset ℕ) ⊆
      (addPageDir sampleBoot 1).frames.free := by
    intro frame hframe
    have hall : ∀ frame ∈ ({0x400, 0x401, 0x402, 0x403} : Finset ℕ),
        frame < numPageFrames ∧
          (addPageDir sampleBoot 1).frames.pageFrameMin ≤ frame ∧
          frame < (addPageDir sampleBoot 1).frames.pageFrameMax ∧
          (addPageDir sampleBoot 1).frames.physicalMemoryBitmap.bit frame =
            false := by
      decide +kernel
    exact Frames.mem_free.2 (hall frame hframe)
  exact Finset.card_le_card hsubset

/-- A segment at the start of a page. -/
theorem elfLoad_loadsRight_sample :
    LoadsRight (sampleImage 0x8048000) 0xC0201000
      ⟨memChangePageDir ((addPageDir sampleBoot 1).withWord
        (refill (addPageDir sampleBoot 1) 0)) 0xC0101000, 0, []⟩ := by
  have hvaddr : 0x8048000 ∈ sampleAddresses := by decide
  refine (elfLoad_loadsRight_iff kernelImage_sample
    (sampleBoot_newPageDir MapsUnused trivial) firstDirectory_fresh
    (sampleImage_wellFormed hvaddr) ?_).2 sampleImage_pagesHold _
      (refill_refills _ (by norm_num))
  rw [sampleImage_framesNeeded _ hvaddr]
  exact firstDirectory_free

/-- A segment across the end of a page faults. -/
theorem elfLoad_unaligned :
    ∃ last, WellFormed (sampleImage 0x8048FFC) 92 ∧
      VmmRun MapsUnused sampleBoot [0xC0201000] (addPageDir sampleBoot 1) ∧
      Fresh (addPageDir sampleBoot 1) [0xC0201000] 0xC0201000 ∧
      framesNeeded (loadScript (sampleImage 0x8048FFC)) ∅ ≤
        (addPageDir sampleBoot 1).frames.free.card ∧
      elfLoad (sampleImage 0x8048FFC) 0xC0201000
        ⟨memChangePageDir ((addPageDir sampleBoot 1).withWord
          (refill (addPageDir sampleBoot 1) 0)) 0xC0101000, 0, []⟩ =
            (.error (.halt .pageFault), last) := by
  have hvaddr : 0x8048FFC ∈ sampleAddresses := by decide
  have hrun := sampleBoot_newPageDir MapsUnused trivial
  have hwell := sampleImage_wellFormed hvaddr
  have hneeded : framesNeeded (loadScript (sampleImage 0x8048FFC)) ∅ ≤
      (addPageDir sampleBoot 1).frames.free.card := by
    rw [sampleImage_framesNeeded _ hvaddr]
    exact firstDirectory_free
  obtain ⟨hphnum, hload, hsegment, hceil, hwrap⟩ :=
    sampleImage_header _ hvaddr
  have hnot : ¬Plays (fun _ => .unmapped)
      (loadScript (sampleImage 0x8048FFC)) := by
    intro hplays
    have hholds : Holds (sampleImage 0x8048FFC) 0 0x8049000 := by
      refine ⟨hload, ?_⟩
      rw [hsegment]
      exact ⟨by norm_num, by norm_num⟩
    obtain ⟨j, hj, hcovers⟩ := hwell.plays.1 hplays 0 (by omega) _ hholds
    obtain rfl : j = 0 := by omega
    obtain ⟨-, x, hx, hpage⟩ := hcovers
    rw [hsegment, hceil] at hx
    obtain rfl : x = 0 := by omega
    rw [hsegment, Nat.zero_mul, Nat.add_zero, hwrap] at hpage
    omega
  obtain ⟨last, hlast⟩ := (hwell.refilled
    (VmmRun.apart kernelImage_sample hrun) firstDirectory_fresh hneeded
    (refill_refills _ (by norm_num : 0 < 256)) 0xC0101000 0).2 hnot
  exact ⟨last, hwell, hrun, firstDirectory_fresh, hneeded, hlast⟩

end Elf

end ClOs
