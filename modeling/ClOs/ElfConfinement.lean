import ClOs.ElfPages

/-!
# Confinement of images

A load makes the accesses of its script up to the first page that gets no frame
or the first byte in a page that is not mapped.  It is confined exactly when the
accesses that it makes are: the rest of memory decides how far a load gets, but
not where its accesses go.
-/

namespace ClOs

namespace Elf

open Memory Stopping

/-- A byte of a buffer, or a page or a byte below `KERNEL_START`. -/
def Access.Inside (size : ℕ) : Access → Prop
  | .read offset => offset < size
  | .map virtAddr => virtAddr < kernelStart
  | .write virtAddr _ => virtAddr < kernelStart
instance (size : ℕ) (access : Access) : Decidable (access.Inside size) :=
  match access with
  | .read offset => inferInstanceAs (Decidable (offset < size))
  | .map virtAddr => inferInstanceAs (Decidable (virtAddr < kernelStart))
  | .write virtAddr _ => inferInstanceAs (Decidable (virtAddr < kernelStart))
/-- An access is made.  When the last frame has become a page, its page table is
put into frame 0, unless the search for a frame leaves the bitmap. -/
def Access.Made (vm : Vm) (dir : ℕ) (cells : ℕ → Cell) (tables : Finset ℕ)
    (free : ℕ) : Access → Prop
  | .read _ => True
  | .map virtAddr => 0 < free ∧
      (pageCost vm tables virtAddr ≤ free ∨
        vm.frames.pageFrameMax ≤ numPageFrames)
  | .write virtAddr _ =>
      if virtAddr < kernelStart then cells virtAddr ≠ .unmapped
      else KernelPage vm dir tables (virtAddr / 0x1000)

/-- The directory entries with page tables, and the free frames, after an
access. -/
def Access.tables (tables : Finset ℕ) : Access → Finset ℕ
  | .map virtAddr => insert (virtAddr / 0x400000) tables
  | _ => tables

def Access.left (vm : Vm) (tables : Finset ℕ) (free : ℕ) : Access → ℕ
  | .map virtAddr => free - pageCost vm tables virtAddr
  | _ => free

def Makes (vm : Vm) (dir : ℕ) :
    (ℕ → Cell) → Finset ℕ → ℕ → List Access → Prop
  | _, _, _, [] => True
  | cells, tables, free, access :: script =>
      access.Made vm dir cells tables free ∧
        Makes vm dir (Cell.step cells access) (access.tables tables)
          (access.left vm tables free) script

/-- What a load has done to the rest of the kernel. -/
structure Confined (size : ℕ) (vm : Vm) (l : Loader) : Prop where
  reads : ∀ offset, .read offset ∈ l.trace → offset < size
  maps : ∀ virtAddr, .map virtAddr ∈ l.trace → virtAddr < kernelStart
  writes : ∀ virtAddr value, .write virtAddr value ∈ l.trace →
    virtAddr < kernelStart ∧ ∃ page, .map page ∈ l.trace ∧
      page / 0x1000 = virtAddr / 0x1000
  kernel : ∀ pageDir, IsStatic vm pageDir → ∀ x, 768 ≤ x → x < 1024 →
    l.vm.word (staticFrame pageDir) x = vm.word (staticFrame pageDir) x

/-- The fields of the ELF header lie in the buffer, and so does every access that
the load of an image makes. -/
def StaysInside (image : ByteStore) (size : ℕ) (vm : Vm) (pageDir : ℕ) : Prop :=
  46 ≤ size ∧ ∀ performed, performed <+: loadScript image →
    Makes vm (staticFrame pageDir) (fun _ => .unmapped) ∅
      vm.frames.free.card performed →
        ∀ access ∈ performed, access.Inside size
section

variable {start vm next : Vm} {live : List ℕ} {pageDir : ℕ} {cells : ℕ → Cell}
  {tables : Finset ℕ}

/-! ## Accesses -/

variable {l : Loader}

theorem Confining.storeByte_eq
    (h : Confining start live pageDir cells tables vm) (a value : ℕ) :
    storeByte a value vm =
      match translate vm.word (staticFrame pageDir) (a / 0x1000) with
      | none => .error .pageFault
      | some (frame, _) => .ok (vm.setByte frame (a % 0x1000) value) := by
  have hcr3 : vm.cr3 / 0x1000 = staticFrame pageDir := by
    rw [h.cr3]
    rfl
  unfold storeByte
  generalize vm.cr3 / 0x1000 = dir at hcr3 ⊢
  subst hcr3
  rfl

/-- A byte is mapped exactly when a write to it is made. -/
theorem Confining.made_write
    (h : Confining start live pageDir cells tables vm) {a : ℕ}
    (ha : a < 4294967296) (value free : ℕ) :
    (Access.write a value).Made start (staticFrame pageDir) cells tables free ↔
      translate vm.word (staticFrame pageDir) (a / 0x1000) ≠ none := by
  have hstart : kernelStart = 3221225472 := rfl
  simp only [Access.Made]
  split_ifs with huser
  · rw [ne_eq, ne_eq, h.user a huser]
  · exact (h.kernel _ (by omega) (by omega)).symm

theorem Confining.performWrite
    (h : Confining start live pageDir cells tables l.vm) (hlayout : Layout start)
    (hstatic : IsStatic start pageDir) {a value free : ℕ}
    (ha : a < kernelStart) (hvalue : value < 256)
    (hmade : (Access.write a value).Made start (staticFrame pageDir) cells tables
      free) :
    ∃ next, perform (.write a value) l = (.ok (), next) ∧
      Confining start live pageDir (Cell.step cells (.write a value)) tables
        next.vm ∧
      next.vm.frames = l.vm.frames := by
  have hstart : kernelStart = 3221225472 := rfl
  have hwalk := (h.made_write (by omega) value free).1 hmade
  obtain ⟨⟨frame, flags⟩, hwalk⟩ := Option.ne_none_iff_exists'.1 hwalk
  have hstore := h.storeByte_eq a value
  rw [hwalk] at hstore
  exact ⟨_, writeByte_ok hstore, h.setByte hlayout hstatic ha hvalue hwalk, rfl⟩

theorem Confining.writes
    (h : Confining start live pageDir cells tables l.vm) {a value free : ℕ}
    (ha : a < 4294967296)
    (hmade : (Access.write a value).Made start (staticFrame pageDir) cells tables
      free) : ∃ next, perform (.write a value) l = (.ok (), next) := by
  have hwalk := (h.made_write ha value free).1 hmade
  obtain ⟨⟨frame, flags⟩, hwalk⟩ := Option.ne_none_iff_exists'.1 hwalk
  have hstore := h.storeByte_eq a value
  rw [hwalk] at hstore
  exact ⟨_, writeByte_ok hstore⟩

theorem Confining.faults
    (h : Confining start live pageDir cells tables l.vm) {a value free : ℕ}
    (ha : a < 4294967296)
    (hnot : ¬(Access.write a value).Made start (staticFrame pageDir) cells tables
      free) : ∃ reason, perform (.write a value) l = (.error reason, l) := by
  have hwalk := h.made_write ha value free
  have hnone : translate l.vm.word (staticFrame pageDir) (a / 0x1000) = none := by
    by_contra hsome
    exact hnot (hwalk.2 hsome)
  have hstore := h.storeByte_eq a value
  rw [hnone] at hstore
  exact ⟨_, writeByte_error hstore⟩

/-! ## Pages -/

theorem mapNewPage_error
    {virtAddr phys : ℕ} {frames : Frames} {halt : Halt}
    (halloc : pmmAllocPageFrame l.vm.frames = .ok (phys, frames))
    (hphys : phys ≠ 0)
    (hmap : memMapPage virtAddr phys pageFlags { l.vm with frames := frames } =
      .error halt) :
    mapNewPage virtAddr l = (.error (.halt halt),
      { l with vm := { l.vm with frames := frames } }) := by
  unfold mapNewPage
  refine (bind_ok (?_ : _ = (Except.ok phys,
    { l with vm := { l.vm with frames := frames } }))).trans ?_
  · simp only [onVm, halloc, bind, Except.bind, pure, Except.pure]
  rw [if_neg hphys]
  have hpage : onVm (fun vm => do
      return ((), ← memMapPage virtAddr phys pageFlags vm))
        { l with vm := { l.vm with frames := frames } } =
          (.error (.halt halt),
            { l with vm := { l.vm with frames := frames } }) := by
    simp only [onVm, hmap, bind, Except.bind]
  rw [bind_error hpage]

theorem mapNewPage_halts
    {virtAddr : ℕ} {halt : Halt}
    (halloc : pmmAllocPageFrame l.vm.frames = .error halt) :
    mapNewPage virtAddr l = (.error (.halt halt), l) := by
  unfold mapNewPage
  refine bind_error ?_
  simp only [onVm, halloc, bind, Except.bind]

theorem mapNewPage_zero
    {virtAddr : ℕ} {frames : Frames}
    (halloc : pmmAllocPageFrame l.vm.frames = .ok (0, frames)) :
    mapNewPage virtAddr l =
      (.error .outOfMemory, { l with vm := { l.vm with frames := frames } }) := by
  unfold mapNewPage
  refine (bind_ok (?_ : _ = (Except.ok 0,
    { l with vm := { l.vm with frames := frames } }))).trans ?_
  · simp only [onVm, halloc, bind, Except.bind, pure, Except.pure]
  rw [if_pos rfl]
  rfl

theorem mapNewPage_none
    (virtAddr : ℕ) (hnone : l.vm.frames.free.card = 0) :
    ∃ reason, mapNewPage virtAddr l = (.error reason, l) := by
  cases halloc : pmmAllocPageFrame l.vm.frames with
  | error halt => exact ⟨_, mapNewPage_halts halloc⟩
  | ok taken =>
      obtain ⟨phys, frames⟩ := taken
      have hsame := pmmAllocPageFrame_same hnone halloc
      have hzero : phys = 0 := by
        by_contra hphys
        have hcard := (pmmAllocPageFrame_takes halloc hphys).card_free
        omega
      rw [hzero, hsame] at halloc
      exact ⟨_, mapNewPage_zero halloc⟩

theorem Confining.alloc
    (h : Confining start live pageDir cells tables vm)
    (hpos : 0 < vm.frames.free.card) :
    ∃ phyAddr frames, pmmAllocPageFrame vm.frames = .ok (phyAddr, frames) ∧
      phyAddr ≠ 0 ∧ Takes vm.frames frames phyAddr ∧
      frames.free.card + 1 = vm.frames.free.card ∧
      memChangePageDir { vm with frames := frames } pageDir =
        { vm with frames := frames } := by
  have hhas : HasFree vm.frames := Frames.hasFree hpos
  obtain ⟨phyAddr, frames, halloc⟩ := hhas.alloc
  have hphys := hhas.alloc_ne_zero (h.loading hpos).apart.directories.min_pos
    halloc
  have htakes := pmmAllocPageFrame_takes halloc hphys
  exact ⟨phyAddr, frames, halloc, hphys, htakes, htakes.card_free,
    memChangePageDir_self h.cr3⟩

theorem Confining.allocTable
    (h : Confining start live pageDir cells tables vm) {virtAddr phyAddr : ℕ}
    {frames : Frames} (htakes : Takes vm.frames frames phyAddr)
    (hcost : pageCost start tables virtAddr = 2) :
    ((pageCost start tables virtAddr ≤ vm.frames.free.card ∨
        start.frames.pageFrameMax ≤ numPageFrames) →
      ∃ address after, pmmAllocPageFrame frames = .ok (address, after)) ∧
    (¬(pageCost start tables virtAddr ≤ vm.frames.free.card ∨
        start.frames.pageFrameMax ≤ numPageFrames) →
      pmmAllocPageFrame frames = .error .outOfBounds) := by
  have hcard := htakes.card_free
  have hmax : frames.pageFrameMax = start.frames.pageFrameMax :=
    htakes.max.trans h.max
  have hrange : frames.pageFrameMin < frames.pageFrameMax := by
    have hlow := htakes.low
    have hhigh := htakes.high
    rw [htakes.min, htakes.max]
    omega
  constructor
  · intro hfits
    by_cases hnone : frames.free.card = 0
    · refine ⟨_, _, (pmmAllocPageFrame_none hnone hrange).1 ?_⟩
      rcases hfits with hfits | hfits <;> omega
    · exact (Frames.hasFree (by omega)).alloc
  · intro hnot
    obtain ⟨hlarge, hmany⟩ := not_or.1 hnot
    exact (pmmAllocPageFrame_none (by omega) hrange).2 (by omega)

theorem Confining.performMap
    (h : Confining start live pageDir cells tables l.vm) {virtAddr : ℕ}
    (huser : virtAddr < kernelStart)
    (hmade : (Access.map virtAddr).Made start (staticFrame pageDir) cells tables
      l.vm.frames.free.card) :
    ∃ next, perform (.map virtAddr) l = (.ok (), next) ∧
      Confining start live pageDir (Cell.step cells (.map virtAddr))
        (insert (virtAddr / 0x400000) tables) next.vm ∧
      next.vm.frames.free.card =
        l.vm.frames.free.card - pageCost start tables virtAddr := by
  have hstart : kernelStart = 3221225472 := rfl
  obtain ⟨hpos, hfits⟩ := hmade
  have hloading := h.loading hpos
  obtain ⟨phyAddr, frames, halloc, hphys, htakes, -, hcr3⟩ := h.alloc hpos
  have hafter := hloading.apart.alloc halloc
  have hactive : Active { l.vm with frames := frames } live pageDir :=
    hloading.active
  have hok : ∃ next, memMapPage virtAddr phyAddr pageFlags
      { l.vm with frames := frames } = .ok next := by
    rcases Nat.mod_two_eq_zero_or_one
      (l.vm.word (staticFrame pageDir) (virtAddr / 0x400000)) with
      habsent | hpresent
    · have hnot : virtAddr / 0x400000 ∉ tables := by
        intro hmem
        have hpresent := (hloading.tables _ (by omega)).1 hmem
        omega
      obtain ⟨address, after, htaken⟩ := (h.allocTable htakes (by
        rw [pageCost_user huser, if_neg hnot])).1 hfits
      have hmap := hafter.directories.map_ok hactive
        (by omega : virtAddr < 0xFFC00000) htaken phyAddr pageFlags
      rwa [hcr3] at hmap
    · have hwindow : Window { l.vm with frames := frames }
          (staticFrame pageDir) := ⟨hloading.window.outer, hloading.window.self⟩
      have hpoints : Points l.vm.word (staticFrame pageDir)
          (virtAddr / 0x400000)
          (l.vm.word (staticFrame pageDir) (virtAddr / 0x400000) / 0x1000) :=
        ⟨hpresent, rfl⟩
      exact memMapPage_table hwindow huser hpoints phyAddr pageFlags
  obtain ⟨next, hnext⟩ := hok
  have hmap := hnext
  rw [← hcr3] at hmap
  obtain ⟨owner, howner, hpoints, hmaps⟩ :=
    hafter.directories.map_user hactive huser hmap
  have hsame : staticFrame owner = staticFrame pageDir :=
    hpoints.2.symm.trans hloading.self.2
  rw [hsame, hcr3] at hmaps
  exact ⟨_, mapNewPage_ok halloc hphys hnext,
    h.mapped hloading huser htakes (pmmAllocPageFrame_lt halloc) halloc hmaps,
    hloading.card huser htakes hmaps⟩

theorem Confining.initial
    (h : Confining start live pageDir cells tables vm) {virtAddr : ℕ}
    (hkernel : kernelStart ≤ virtAddr) (hhigh : virtAddr < 4294967296) :
    vm.word (staticFrame vm.initialPageDir) (virtAddr / 0x400000) =
      start.word (staticFrame start.initialPageDir) (virtAddr / 0x400000) := by
  have hstart : kernelStart = 3221225472 := rfl
  rw [h.statics.initialPageDir]
  exact h.halves _ (.inl rfl) _ (by omega) (by omega)

theorem Confining.maps
    (h : Confining start live pageDir cells tables l.vm) {virtAddr : ℕ}
    (hkernel : kernelStart ≤ virtAddr) (hhigh : virtAddr < 4294967296)
    (hmade : (Access.map virtAddr).Made start (staticFrame pageDir) cells tables
      l.vm.frames.free.card) :
    ∃ next, perform (.map virtAddr) l = (.ok (), next) := by
  obtain ⟨hpos, hfits⟩ := hmade
  have hloading := h.loading hpos
  obtain ⟨phyAddr, frames, halloc, hphys, htakes, -, hcr3⟩ := h.alloc hpos
  have hafter := hloading.apart.alloc halloc
  have hactive : Active { l.vm with frames := frames } live pageDir :=
    hloading.active
  have hinitial := h.initial hkernel hhigh
  have hmap : ∃ next, memMapPage virtAddr phyAddr pageFlags
      (memChangePageDir { l.vm with frames := frames } pageDir) = .ok next := by
    refine hafter.directories.map_kernel_ok hactive hkernel hhigh ?_ phyAddr
      pageFlags
    rcases Nat.mod_two_eq_zero_or_one
      (l.vm.word (staticFrame l.vm.initialPageDir) (virtAddr / 0x400000)) with
      habsent | hpresent
    · refine .inr ((h.allocTable htakes ?_).1 hfits)
      rw [pageCost_kernel hkernel, ← hinitial, if_neg (by omega)]
    · exact .inl hpresent
  rw [hcr3] at hmap
  obtain ⟨next, hnext⟩ := hmap
  exact ⟨_, mapNewPage_ok halloc hphys hnext⟩

/-- A page that is not mapped leaves every word alone. -/
theorem Confining.stops
    (h : Confining start live pageDir cells tables l.vm) {virtAddr : ℕ}
    (hhigh : virtAddr < 4294967296)
    (hnot : ¬(Access.map virtAddr).Made start (staticFrame pageDir) cells tables
      l.vm.frames.free.card) :
    ∃ reason frames, perform (.map virtAddr) l =
      (.error reason, { l with vm := { l.vm with frames := frames } }) := by
  have hstart : kernelStart = 3221225472 := rfl
  by_cases hnone : l.vm.frames.free.card = 0
  · obtain ⟨reason, hstop⟩ := mapNewPage_none virtAddr hnone
    exact ⟨reason, l.vm.frames, hstop⟩
  · have hpos : 0 < l.vm.frames.free.card := by omega
    have hfits := fun hfits => hnot ⟨hpos, hfits⟩
    have hloading := h.loading hpos
    obtain ⟨phyAddr, frames, halloc, hphys, htakes, -, hcr3⟩ := h.alloc hpos
    have hafter := hloading.apart.alloc halloc
    have hactive : Active { l.vm with frames := frames } live pageDir :=
      hloading.active
    have hcost : ∀ {set : Prop} [Decidable set],
        pageCost start tables virtAddr = 1 + (if set then 0 else 1) → ¬set := by
      intro set _ hcost hset
      rw [if_pos hset] at hcost
      exact hfits (.inl (by omega))
    refine ⟨.halt .outOfBounds, frames, mapNewPage_error halloc hphys ?_⟩
    rcases Nat.lt_or_ge virtAddr kernelStart with huser | hkernel
    · have hnew := hcost (pageCost_user huser)
      have hpresent := hloading.tables (virtAddr / 0x400000) (by omega)
      have htable := (h.allocTable htakes (by
        rw [pageCost_user huser, if_neg hnew])).2 hfits
      refine memMapPage_user_error
        ⟨hloading.window.outer, hloading.window.self⟩ huser ?_ htable
      by_contra habsent
      exact hnew (hpresent.2 (by
        have habsent : ¬l.vm.word (staticFrame pageDir)
          (virtAddr / 0x400000) % 2 = 0 := habsent
        omega))
    · have hnew := hcost (pageCost_kernel hkernel)
      have htable := (h.allocTable htakes (by
        rw [pageCost_kernel hkernel, if_neg hnew])).2 hfits
      rw [← h.initial hkernel hhigh] at hnew
      have hmap := hafter.directories.map_kernel_error hactive hkernel
        (by
          change l.vm.word (staticFrame l.vm.initialPageDir)
            (virtAddr / 0x400000) % 2 = 0
          omega) htable phyAddr pageFlags
      rwa [hcr3] at hmap

/-! ## Runs -/

/-- An access by 32-bit addresses to a byte. -/
def Access.Bounded : Access → Prop
  | .read _ => True
  | .map virtAddr => virtAddr < 4294967296
  | .write virtAddr value => virtAddr < 4294967296 ∧ value < 256

theorem onVm_cases
    {Value : Type} (f : Vm → Outcome (Value × Vm)) (l : Loader) :
    (∃ reason, onVm f l = (.error reason, l)) ∨
      ∃ value vm, onVm f l = (.ok value, { l with vm := vm }) := by
  unfold onVm
  cases f l.vm with
  | error halt => exact .inl ⟨_, rfl⟩
  | ok result => exact .inr ⟨result.1, result.2, rfl⟩

theorem onVm_bind_cases
    {Value : Type} {f : Vm → Outcome (Value × Vm)}
    {rest : Value → Load Unit} {l : Loader}
    {motive : Except Stop Unit × Loader → Prop}
    (herror : ∀ reason, motive (.error reason, l))
    (hok : ∀ value vm, motive (rest value { l with vm := vm })) :
    motive ((onVm f >>= rest) l) := by
  rcases onVm_cases f l with ⟨reason, hstop⟩ | ⟨value, vm, hdone⟩
  · rw [bind_error hstop]
    exact herror reason
  · rw [bind_ok hdone]
    exact hok value vm

theorem perform_cases
    (access : Access) (l : Loader) :
    ∃ vm, perform access l =
        (.ok (), { l with vm := vm, trace := l.trace ++ [access] }) ∨
      ∃ reason, perform access l = (.error reason, { l with vm := vm }) := by
  cases access with
  | read offset => exact ⟨l.vm, .inl rfl⟩
  | map virtAddr =>
      change ∃ vm, mapNewPage virtAddr l = _ ∨ ∃ reason,
        mapNewPage virtAddr l = _
      unfold mapNewPage
      refine onVm_bind_cases (motive := fun result => ∃ vm,
        result = (.ok (), { l with
          vm := vm
          trace := l.trace ++ [.map virtAddr] }) ∨
        ∃ reason, result = (.error reason, { l with vm := vm }))
        (fun reason => ?_) fun phys vm => ?_
      · exact ⟨l.vm, .inr ⟨reason, rfl⟩⟩
      · split_ifs with hphys
        · exact ⟨vm, .inr ⟨.outOfMemory, rfl⟩⟩
        · rcases onVm_cases (fun vm => do
              return ((), ← memMapPage virtAddr phys pageFlags vm))
              { l with vm := vm } with
            ⟨reason, herror⟩ | ⟨value, mapped, hpage⟩
          · rw [bind_error herror]
            exact ⟨vm, .inr ⟨reason, rfl⟩⟩
          · rw [bind_ok hpage]
            exact ⟨mapped, .inl rfl⟩
  | write a value =>
      change ∃ vm, writeByte a value l = _ ∨ ∃ reason,
        writeByte a value l = _
      unfold writeByte
      rcases onVm_cases (fun vm => do return ((), ← storeByte a value vm)) l with
        ⟨reason, herror⟩ | ⟨done, vm, hbyte⟩
      · rw [bind_error herror]
        exact ⟨l.vm, .inr ⟨reason, rfl⟩⟩
      · rw [bind_ok hbyte]
        exact ⟨vm, .inl rfl⟩

theorem perform_logs : Logs perform Loader.trace where
  done access l next hok := by
    obtain ⟨vm, hdone | ⟨reason, hstop⟩⟩ := perform_cases access l
    · rw [hdone] at hok
      cases hok
      rfl
    · rw [hstop] at hok
      cases hok
  stopped access l next reason herror := by
    obtain ⟨vm, hdone | ⟨other, hstop⟩⟩ := perform_cases access l
    · rw [hdone] at herror
      cases herror
    · rw [hstop] at herror
      cases herror
      rfl

variable {access : Access} {size free : ℕ}

theorem Confining.performs
    (h : Confining start live pageDir cells tables l.vm) (hlayout : Layout start)
    (hstatic : IsStatic start pageDir) (hbounded : access.Bounded)
    (hinside : access.Inside size)
    (hmade : access.Made start (staticFrame pageDir) cells tables
      l.vm.frames.free.card) :
    ∃ next, perform access l = (.ok (), next) ∧
      Confining start live pageDir (Cell.step cells access)
        (access.tables tables) next.vm ∧
      next.vm.frames.free.card =
        access.left start tables l.vm.frames.free.card := by
  cases access with
  | read offset => exact ⟨_, rfl, h, rfl⟩
  | map virtAddr => exact h.performMap hinside hmade
  | write a value =>
      obtain ⟨next, hperform, hnext, hframes⟩ :=
        h.performWrite hlayout hstatic hinside hbounded.2 hmade
      refine ⟨next, hperform, hnext, ?_⟩
      rw [hframes]
      rfl

theorem Confining.done
    (h : Confining start live pageDir cells tables l.vm)
    (hbounded : access.Bounded)
    (hmade : access.Made start (staticFrame pageDir) cells tables
      l.vm.frames.free.card) :
    ∃ next, perform access l = (.ok (), next) := by
  cases access with
  | read offset => exact ⟨_, rfl⟩
  | map virtAddr =>
      rcases Nat.lt_or_ge virtAddr kernelStart with huser | hkernel
      · obtain ⟨next, hperform, -⟩ := h.performMap huser hmade
        exact ⟨next, hperform⟩
      · exact h.maps hkernel hbounded hmade
  | write a value => exact h.writes hbounded.1 hmade

theorem Confining.fails
    (h : Confining start live pageDir cells tables l.vm)
    (hbounded : access.Bounded)
    (hnot : ¬access.Made start (staticFrame pageDir) cells tables
      l.vm.frames.free.card) :
    ∃ reason frames, perform access l =
      (.error reason, { l with vm := { l.vm with frames := frames } }) := by
  cases access with
  | read offset => exact absurd trivial hnot
  | map virtAddr => exact h.stops hbounded hnot
  | write a value =>
      obtain ⟨reason, hfault⟩ := h.faults hbounded.1 hnot
      exact ⟨reason, l.vm.frames, hfault⟩

theorem Confining.runAll
    {script : List Access}
    (h : Confining start live pageDir cells tables l.vm) (hlayout : Layout start)
    (hstatic : IsStatic start pageDir)
    (hbounded : ∀ access ∈ script, access.Bounded)
    (hinside : ∀ performed, performed <+: script →
      Makes start (staticFrame pageDir) cells tables l.vm.frames.free.card
        performed → ∀ access ∈ performed, access.Inside size) :
    ∃ performed, (Stopping.runAll perform script l).2.trace =
        l.trace ++ performed ∧
      performed <+: script ∧
      Makes start (staticFrame pageDir) cells tables l.vm.frames.free.card
        performed ∧
      ∀ other, IsStatic start other → ∀ x, 768 ≤ x → x < 1024 →
        (Stopping.runAll perform script l).2.vm.word (staticFrame other) x =
          start.word (staticFrame other) x := by
  induction script generalizing cells tables l with
  | nil => exact ⟨[], (List.append_nil _).symm, List.prefix_refl _, trivial,
      h.halves⟩
  | cons access script ih =>
      have haccess := hbounded access (List.mem_cons_self ..)
      rw [Stopping.runAll]
      by_cases hmade : access.Made start (staticFrame pageDir) cells tables
        l.vm.frames.free.card
      · have hfirst : access.Inside size :=
          hinside [access] (List.cons_prefix_cons.2 ⟨rfl, List.nil_prefix⟩)
            ⟨hmade, trivial⟩ access (List.mem_singleton_self _)
        obtain ⟨next, hperform, hnext, hleft⟩ :=
          h.performs hlayout hstatic haccess hfirst hmade
        obtain ⟨performed, htrace, hlead, hmakes, hhalves⟩ := ih hnext
          (fun other hother => hbounded other (List.mem_cons_of_mem _ hother))
          (fun performed hlead hmakes other hother => by
            rw [hleft] at hmakes
            exact hinside (access :: performed)
              (List.cons_prefix_cons.2 ⟨rfl, hlead⟩) ⟨hmade, hmakes⟩ other
              (List.mem_cons_of_mem _ hother))
        rw [hleft] at hmakes
        rw [bind_ok hperform]
        refine ⟨access :: performed, ?_,
          List.cons_prefix_cons.2 ⟨rfl, hlead⟩, ⟨hmade, hmakes⟩, hhalves⟩
        rw [htrace, perform_logs.done access l next hperform]
        simp
      · obtain ⟨reason, frames, hfail⟩ := h.fails haccess hmade
        rw [bind_error hfail]
        exact ⟨[], (List.append_nil _).symm, List.nil_prefix, trivial, h.halves⟩

/-- A run whose accesses leave the buffer or the user half leaves them. -/
theorem Confining.runAll_outside
    {script performed : List Access}
    (h : Confining start live pageDir cells tables l.vm) (hlayout : Layout start)
    (hstatic : IsStatic start pageDir)
    (hbounded : ∀ access ∈ script, access.Bounded)
    (hlead : performed <+: script)
    (hmakes : Makes start (staticFrame pageDir) cells tables
      l.vm.frames.free.card performed)
    (houtside : ∃ access ∈ performed, ¬access.Inside size) :
    ∃ access ∈ (Stopping.runAll perform script l).2.trace,
      ¬access.Inside size := by
  induction script generalizing cells tables l performed with
  | nil =>
      obtain ⟨access, hmem, -⟩ := houtside
      rw [List.prefix_nil.1 hlead] at hmem
      exact absurd hmem List.not_mem_nil
  | cons access script ih =>
      obtain ⟨other, hmem, hout⟩ := houtside
      cases performed with
      | nil => exact absurd hmem List.not_mem_nil
      | cons first performed =>
          obtain ⟨rfl, htail⟩ := List.cons_prefix_cons.1 hlead
          obtain ⟨hmade, hlater⟩ := hmakes
          have hfirst := hbounded first (List.mem_cons_self ..)
          rw [Stopping.runAll]
          by_cases hinside : first.Inside size
          · obtain ⟨next, hperform, hnext, hleft⟩ :=
              h.performs hlayout hstatic hfirst hinside hmade
            rw [← hleft] at hlater
            rw [bind_ok hperform]
            refine ih hnext (fun other hother =>
              hbounded other (List.mem_cons_of_mem _ hother)) htail hlater
              ⟨other, ?_, hout⟩
            rcases List.mem_cons.1 hmem with rfl | hmem
            · exact absurd hinside hout
            · exact hmem
          · obtain ⟨next, hperform⟩ := h.done hfirst hmade
            rw [bind_ok hperform]
            obtain ⟨after, -, htrace, -⟩ := perform_logs.runAll script next
            refine ⟨first, ?_, hinside⟩
            rw [htrace, perform_logs.done first l next hperform]
            simp

/-! ## The whole load -/

theorem elfLoad_run
    {image : ByteStore} (haccepts : Accepts image) (pageDir : ℕ) (l : Loader) :
    (elfLoad image pageDir l).2.trace =
        (Stopping.runAll perform (loadScript image)
          (l.entered image pageDir)).2.trace ∧
      (elfLoad image pageDir l).2.vm.word =
        (Stopping.runAll perform (loadScript image)
          (l.entered image pageDir)).2.vm.word := by
  rw [elfLoad_eq haccepts]
  unfold loadScript
  rw [runAll_append]
  have hperforms : Performs perform
      (loadSegments image (phoff image) (phnum image) 0)
      (segmentsScript image 0 (phnum image)) () :=
    loadSegments_performs (phnum image) 0
  have hsegments := hperforms (l.entered image pageDir)
  cases hrest : Stopping.runAll perform (segmentsScript image 0 (phnum image))
      (l.entered image pageDir) with
  | mk outcome mid =>
      unfold afterSegments onOutOfMemory
      cases outcome with
      | error reason =>
          rw [bind_error hrest] at hsegments ⊢
          rw [bind_error hsegments]
          cases reason with
          | halt halt => exact ⟨rfl, rfl⟩
          | outOfMemory => exact ⟨rfl, rfl⟩
      | ok done =>
          rw [bind_ok hrest] at hsegments ⊢
          rw [bind_ok hsegments, runAll_singleton]
          unfold mapStack onOutOfMemory
          cases hpage : mapNewPage (stackElfStart - 0x1000) mid with
          | mk outcome last =>
              have hperform : perform (.map (stackElfStart - 0x1000)) mid =
                  (outcome, last) := hpage
              rw [hperform]
              cases outcome with
              | error reason =>
                  rw [bind_error hpage]
                  cases reason with
                  | halt halt => exact ⟨rfl, rfl⟩
                  | outOfMemory => exact ⟨rfl, rfl⟩
              | ok done =>
                  rw [bind_ok hpage]
                  exact ⟨rfl, rfl⟩

theorem loadScript_bounded
    (image : ByteStore) : ∀ access ∈ loadScript image, access.Bounded := by
  intro access hmem
  rcases List.mem_append.1 hmem with hsegments | hpage
  · obtain ⟨k, -, -, hheader⟩ := mem_segmentsScript.1 hsegments
    rcases mem_headerScript hheader with ⟨i, -, rfl⟩ | ⟨-, hscript⟩
    · trivial
    · unfold Segment.script at hscript
      rcases List.mem_append.1 hscript with hmaps | hwrites
      · obtain ⟨x, -, rfl⟩ := mem_mapScript.1 hmaps
        exact u32_lt _
      · rcases List.mem_append.1 hwrites with hcopy | hzero
        · obtain ⟨i, -, rfl | rfl⟩ := mem_copyScript.1 hcopy
          · trivial
          · exact ⟨u32_lt _, UInt8.toNat_lt _⟩
        · obtain ⟨i, -, rfl⟩ := mem_zeroScript.1 hzero
          exact ⟨u32_lt _, by norm_num⟩
  · obtain rfl := List.mem_singleton.1 hpage
    change stackElfStart - 0x1000 < 4294967296
    decide

/-- The reads of the ELF header. -/
theorem mem_headReads
    {access : Access} (h : access ∈ validateReads ++ entryReads) :
    ∃ offset < 46, access = .read offset := by
  have hreads : ∀ offset count, offset + count ≤ 46 →
      access ∈ reads offset count → ∃ offset < 46, access = .read offset := by
    intro offset count hle hmem
    obtain ⟨i, hi, rfl⟩ := mem_reads.1 hmem
    exact ⟨offset + i, by omega, by rw [u32_of_lt (by omega)]⟩
  unfold validateReads entryReads at h
  simp only [List.mem_append] at h
  rcases h with (h | h | h | h | h | h | h) | h | h | h
  all_goals exact hreads _ _ (by decide) h

theorem headReads_last : Access.read 45 ∈ validateReads ++ entryReads := by
  refine List.mem_append_right _ (List.mem_append_right _
    (List.mem_append_right _ (mem_reads.2 ⟨1, by norm_num, ?_⟩)))
  rw [u32_of_lt (by norm_num)]

/-- Every byte that is written lies in a page of the script or in one that was
mapped before. -/
theorem Makes.covered
    {dir : ℕ} {script : List Access}
    (hmakes : Makes start dir cells tables free script)
    (hinside : ∀ access ∈ script, access.Inside size) {a value : ℕ}
    (hwrite : .write a value ∈ script) :
    cells a ≠ .unmapped ∨ ∃ page, .map page ∈ script ∧
      page / 0x1000 = a / 0x1000 := by
  induction script generalizing cells tables free with
  | nil => exact absurd hwrite List.not_mem_nil
  | cons access script ih =>
      obtain ⟨hmade, hlater⟩ := hmakes
      rcases List.mem_cons.1 hwrite with rfl | hwrite
      · have huser : a < kernelStart := hinside _ (List.mem_cons_self ..)
        simp only [Access.Made, if_pos huser] at hmade
        exact .inl hmade
      · rcases ih hlater (fun other hother =>
            hinside other (List.mem_cons_of_mem _ hother)) hwrite with
          hcell | ⟨page, hpage, hsame⟩
        · cases access with
          | read offset => exact .inl hcell
          | map virtAddr =>
              rw [Cell.step_map] at hcell
              by_cases hsame : a / 0x1000 = virtAddr / 0x1000
              · exact .inr ⟨virtAddr, List.mem_cons_self .., hsame.symm⟩
              · rw [if_neg hsame] at hcell
                exact .inl hcell
          | write b other =>
              by_cases hsame : a = b
              · subst hsame
                have huser : a < kernelStart :=
                  hinside _ (List.mem_cons_self ..)
                simp only [Access.Made, if_pos huser] at hmade
                exact .inl hmade
              · rw [Cell.step_write_of_ne _ hsame] at hcell
                exact .inl hcell
        · exact .inr ⟨page, List.mem_cons_of_mem _ hpage, hsame⟩

/-- The state in which the segments of a fresh directory are loaded. -/
theorem Fresh.confining
    (hfresh : Fresh vm live pageDir) (h : Memory.Apart vm live) :
    Confining vm live pageDir (fun _ => .unmapped) ∅
      (memChangePageDir vm pageDir) where
  cr3 := rfl
  statics := ⟨rfl, rfl, rfl⟩
  max := rfl
  halves _ _ _ _ _ := rfl
  user a ha := by
    have hstart : kernelStart = 3221225472 := rfl
    simp only [iff_true]
    exact translate_absent (hfresh.user _ (by omega))
  kernel page _ _ := by
    unfold KernelPage
    simp [memChangePageDir]
  data page hpage frame flags hframe := by
    have habsent : translate (memChangePageDir vm pageDir).word
        (staticFrame pageDir) page = none :=
      translate_absent (hfresh.user _ (by omega))
    rw [habsent] at hframe
    cases hframe
  loading _ := hfresh.loading h

variable {image : ByteStore} {oldPageDir entry : ℕ}

theorem Confined.inside
    (h : Confined size vm l) (hmem : access ∈ l.trace) :
    access.Inside size := by
  cases access with
  | read offset => exact h.reads offset hmem
  | map virtAddr => exact h.maps virtAddr hmem
  | write a value => exact (h.writes a value hmem).1

theorem Fresh.staysInside
    (hfresh : Fresh vm live pageDir) (h : Memory.Apart vm live)
    (haccepts : Accepts image)
    (hconfined : Confined size vm (elfLoad image pageDir
      ⟨memChangePageDir vm oldPageDir, entry, []⟩).2) :
    StaysInside image size vm pageDir := by
  have hstatic := h.directories.static hfresh.active
  obtain ⟨htrace, -⟩ := elfLoad_run haccepts pageDir
    ⟨memChangePageDir vm oldPageDir, entry, []⟩
  have hall : ∀ access ∈ (Stopping.runAll perform (loadScript image)
      (Loader.entered ⟨memChangePageDir vm oldPageDir, entry, []⟩ image
        pageDir)).2.trace, access.Inside size := by
    rw [← htrace]
    exact fun access hmem => hconfined.inside hmem
  constructor
  · obtain ⟨performed, -, hlog, -⟩ := perform_logs.runAll (loadScript image)
      (Loader.entered ⟨memChangePageDir vm oldPageDir, entry, []⟩ image pageDir)
    have hread := hall (.read 45) (by
      rw [hlog]
      exact List.mem_append_left _ headReads_last)
    exact hread
  · intro performed hlead hmakes
    by_contra hnot
    push Not at hnot
    obtain ⟨access, hmem, hout⟩ := Confining.runAll_outside
      (l := Loader.entered ⟨memChangePageDir vm oldPageDir, entry, []⟩ image
        pageDir)
      (hfresh.confining h) h.directories.layout hstatic
      (loadScript_bounded image) hlead hmakes hnot
    exact hout (hall access hmem)

theorem Fresh.confined
    (hfresh : Fresh vm live pageDir) (h : Memory.Apart vm live)
    (haccepts : Accepts image) (hinside : StaysInside image size vm pageDir) :
    Confined size vm (elfLoad image pageDir
      ⟨memChangePageDir vm oldPageDir, entry, []⟩).2 := by
  have hstatic := h.directories.static hfresh.active
  obtain ⟨hsize, hinside⟩ := hinside
  obtain ⟨htrace, hword⟩ := elfLoad_run haccepts pageDir
    ⟨memChangePageDir vm oldPageDir, entry, []⟩
  obtain ⟨performed, hlog, hlead, hmakes, hhalves⟩ := Confining.runAll
    (l := Loader.entered ⟨memChangePageDir vm oldPageDir, entry, []⟩ image
      pageDir)
    (hfresh.confining h) h.directories.layout hstatic
    (loadScript_bounded image) hinside
  have hstays := hinside performed hlead hmakes
  have hmem : ∀ access, access ∈ (elfLoad image pageDir
      ⟨memChangePageDir vm oldPageDir, entry, []⟩).2.trace ↔
        access ∈ validateReads ++ entryReads ∨ access ∈ performed := by
    intro access
    rw [htrace, hlog, List.mem_append]
    rfl
  have hlater : ∀ access, access ∈ (elfLoad image pageDir
      ⟨memChangePageDir vm oldPageDir, entry, []⟩).2.trace →
        (∀ offset, access ≠ .read offset) → access ∈ performed := by
    intro access htraced hnot
    rcases (hmem access).1 htraced with hhead | hperformed
    · obtain ⟨offset, -, hread⟩ := mem_headReads hhead
      exact absurd hread (hnot offset)
    · exact hperformed
  exact {
    reads := fun offset htraced => by
      rcases (hmem _).1 htraced with hhead | hperformed
      · obtain ⟨other, hlt, hread⟩ := mem_headReads hhead
        cases hread
        omega
      · exact hstays _ hperformed
    maps := fun virtAddr htraced =>
      hstays _ (hlater _ htraced (by simp))
    writes := fun a value htraced => by
      have hperformed := hlater _ htraced (by simp)
      refine ⟨hstays _ hperformed, ?_⟩
      rcases hmakes.covered hstays hperformed with
        hcell | ⟨page, hpage, hsame⟩
      · exact absurd rfl hcell
      · exact ⟨page, (hmem _).2 (.inr hpage), hsame⟩
    kernel := fun other hother x hlow hhigh => by
      rw [hword]
      exact hhalves other hother x hlow hhigh }

end

theorem makes_reads
    {vm : Vm} {dir free : ℕ} {cells : ℕ → Cell} {tables : Finset ℕ}
    {script rest : List Access}
    (hreads : ∀ access ∈ script, ∃ offset, access = .read offset) :
    Makes vm dir cells tables free (script ++ rest) ↔
      Makes vm dir cells tables free rest := by
  induction script with
  | nil => rfl
  | cons access script ih =>
      obtain ⟨offset, rfl⟩ := hreads access (List.mem_cons_self ..)
      rw [List.cons_append, Makes]
      exact (and_iff_right trivial).trans
        (ih fun other hother => hreads other (List.mem_cons_of_mem _ hother))

end Elf

end ClOs
