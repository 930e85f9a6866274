import ClOs.HeapStale

/-!
# Requests of any size

`kmalloc` takes any 32-bit size.  Rounding it, adding the header, growing the
heap by whole thresholds and passing the new size as an `int` are exact only
below limits that the code does not check.  This file says which requests are
served as they should be.
-/

namespace ClOs.Heap

open Memory

/-! ## The pages of the heap -/

/-- The pages that `change_heap_size` maps. -/
def heapPages (newHeapSize : ℤ) (heapSize : ℕ) : List ℕ :=
  let oldPageTop := toInt (ceilDiv heapSize 0x1000)
  let newPageTop := (newHeapSize + 0x1000 - 1).tdiv 0x1000
  (List.range (newPageTop - oldPageTop).toNat).map fun (i : ℕ) =>
    u32 (kernelMalloc + ofInt ((oldPageTop + i) * 0x1000))

/-- One round of the loop of `change_heap_size`. -/
def mapHeapPage (vm : Vm) (page : ℕ) : Outcome Vm := do
  let (phys, frames) ← pmmAllocPageFrame vm.frames
  if phys = 0 then .error .kernelPanic
  else
    memMapPage page phys
      (pageFlagPresent ||| pageFlagWrite ||| pageFlagOwner)
      { vm with frames := frames }

theorem mapHeapPages_eq_foldlM (oldPageTop : ℤ) (count i : ℕ) (vm : Vm) :
    mapHeapPages oldPageTop count i vm =
      ((List.range' i count).map fun (i : ℕ) =>
        u32 (kernelMalloc + ofInt ((oldPageTop + i) * 0x1000))).foldlM
          mapHeapPage vm := by
  induction count generalizing i vm with
  | zero => rfl
  | succ count ih =>
      rw [List.range'_succ, List.map_cons, List.foldlM_cons]
      unfold mapHeapPages mapHeapPage
      cases halloc : pmmAllocPageFrame vm.frames with
      | error halt => rfl
      | ok taken =>
          obtain ⟨phys, frames⟩ := taken
          by_cases hphys : phys = 0
          · simp only [bind, Except.bind, if_pos hphys]
          · simp only [bind, Except.bind, if_neg hphys]
            cases memMapPage
                (u32 (kernelMalloc + ofInt ((oldPageTop + i) * 0x1000))) phys
                (pageFlagPresent ||| pageFlagWrite ||| pageFlagOwner)
                { vm with frames := frames } with
            | error halt => rfl
            | ok mapped => exact ih (i + 1) mapped

theorem changeHeapSize_maps
    {newHeapSize : ℤ} {s next : State}
    (hgrow : changeHeapSize newHeapSize s = .ok next) :
    (heapPages newHeapSize s.heapSize).foldlM mapHeapPage s.vm =
      .ok next.vm := by
  obtain ⟨vm, hmap, hnext⟩ := Outcome.bind_eq_ok.mp hgrow
  cases hnext
  rw [mapHeapPages_eq_foldlM, ← List.range_eq_range'] at hmap
  exact hmap

/-! ## What a request should do -/

/-- A size rounded up to a multiple of 8. -/
def roundUp (size : ℕ) : ℕ := (size + 7) / 8 * 8

/-- The whole thresholds by which the heap grows for a payload of `rounded`
bytes behind `tail` free ones, as an exact number. -/
def growth (rounded tail : ℕ) : ℕ :=
  max heapThreshold
    ((rounded + headerSize - tail + 65535) / heapThreshold * heapThreshold)

/-- The free bytes of the block behind which the heap grows. -/
def tailRoom (mem : ByteStore) (prev : ℕ) : ℕ :=
  if prev ≠ 0 ∧ usedOf mem prev = false then sizeOf mem prev else 0

/-- Growing behind the block `prev`: `total_needed`, `expand_size`, the argument
of `change_heap_size` and `remaining` do not wrap. -/
structure GrowsExactly (s : State) (rounded prev : ℕ) : Prop where
  needed : rounded + headerSize < 4294967296
  expand : expandSize s.mem rounded prev = growth rounded (tailRoom s.mem prev)
  argument : toInt (u32 (s.heapSize + expandSize s.mem rounded prev)) =
    (s.heapSize + growth rounded (tailRoom s.mem prev) : ℕ)
  remaining : ∀ grown,
    changeHeapSize (toInt (u32 (s.heapSize + expandSize s.mem rounded prev))) s =
        .ok grown →
      rounded ≤ sizeOf (lastBlock s.heapSize prev grown).2
        (lastBlock s.heapSize prev grown).1

/-- None of the values that `kmalloc` computes wraps. -/
def Unwrapped (s : State) (size : ℕ) : Prop :=
  size + 7 < 4294967296 ∧
    match search s.mem (roundUp size) (s.heapSize + 1) s.heapHead 0 with
    | .ok (.found current) => roundUp size ≤ sizeOf s.mem current
    | .ok (.missed prev) => GrowsExactly s (roundUp size) prev
    | .error _ => True

/-- The argument with which a call of `kmalloc` grows the heap. -/
def growArgument (s : State) (size : ℕ) : Option ℤ :=
  if size = 0 then none
  else
    match search s.mem (u32 (size + 7) / 8 * 8) (s.heapSize + 1)
        s.heapHead 0 with
    | .ok (.missed prev) =>
        some (toInt (u32 (s.heapSize +
          expandSize s.mem (u32 (size + 7) / 8 * 8) prev)))
    | _ => none

/-- The pages that a call of `kmalloc` maps. -/
def grownPages (s : State) (size : ℕ) : List ℕ :=
  match growArgument s size with
  | some newHeapSize => heapPages newHeapSize s.heapSize
  | none => []

/-- The call grows the heap or touches its new block, and the kernel halts; nothing
has been stored by then. -/
def HaltsUnstored (s : State) (size : ℕ) (halt : Halt) : Prop :=
  halt ≠ .endless ∧
    ∃ newHeapSize, growArgument s size = some newHeapSize ∧
      (changeHeapSize newHeapSize s = .error halt ∨
        ∃ grown, changeHeapSize newHeapSize s = .ok grown ∧
          grown.mem = s.mem ∧ grown.heapHead = s.heapHead ∧
          touchPage (u32 (s.heapStart + s.heapSize)) grown.vm = .error halt)

/-- A request is served as it should be when `pages` have been mapped before: a
payload is large enough, lies in mapped pages and was measured without a wrap;
otherwise the blocks are as they were. -/
def Served (s : State) (pages : List ℕ) (size : ℕ) : Prop :=
  match kmalloc size s with
  | .ok (ptr, next) =>
      if ptr = 0 then next = s
      else
        size ≤ sizeOf next.mem (ptr - headerSize) ∧
          (∀ k < sizeOf next.mem (ptr - headerSize),
            (ptr + k) / 0x1000 * 0x1000 ∈ pages ++ grownPages s size) ∧
          Unwrapped s size
  | .error halt => HaltsUnstored s size halt

/-! ## The requests that go wrong -/

/-- The free bytes at the end of a layout. -/
def freeTail (cells : List Cell) : ℕ :=
  match cells.getLast? with
  | some last => if last.used then 0 else last.size
  | none => 0

def CanGrow (s : State) : Prop :=
  ∃ grown,
    changeHeapSize (s.heapSize + heapThreshold : ℕ) s = .ok grown ∧
      touchPage (kernelMalloc + s.heapSize) grown.vm = .ok ()

/-- `total_needed`, or its sum with the threshold in `CEIL_DIV`, does not fit in
32 bits. -/
def Overflows (rounded tail : ℕ) : Prop :=
  4294967296 ≤ rounded + headerSize ∨
    4294967296 < rounded + headerSize - tail + heapThreshold

/-- A request that goes wrong on a heap with these blocks. -/
def Fails (s : State) (cells : List Cell) (size : ℕ) : Prop :=
  if 0xFFFFFFF8 < size then
    (∃ cell ∈ cells, cell.used = false) ∨ CanGrow s
  else
    (∀ cell ∈ cells, Unfit (roundUp size) cell) ∧
      (Overflows (roundUp size) (freeTail cells) ∧ CanGrow s ∨
        ¬Overflows (roundUp size) (freeTail cells) ∧
          2147483648 ≤ s.heapSize + growth (roundUp size) (freeTail cells) ∧
          touchPage (kernelMalloc + s.heapSize) s.vm = .ok ())

/-! ## The computed sizes -/

theorem roundUp_eq {size : ℕ} (hsize : size ≤ 0xFFFFFFF8) :
    u32 (size + 7) / 8 * 8 = roundUp size := by
  rw [u32_of_lt (by omega)]
  rfl

theorem roundUp_wraps {size : ℕ}
    (hhigh : 0xFFFFFFF8 < size) (hsize : size < 4294967296) :
    u32 (size + 7) / 8 * 8 = 0 := by
  unfold u32
  omega

section

variable {mem : ByteStore} {rounded prev : ℕ}

theorem tailRoom_le
    (hunfit : usedOf mem prev = false → sizeOf mem prev < rounded) :
    tailRoom mem prev ≤ rounded := by
  unfold tailRoom
  split_ifs with hfree
  · exact (hunfit hfree.2).le
  · exact Nat.zero_le _

theorem expandSize_exact
    (hunfit : usedOf mem prev = false → sizeOf mem prev < rounded)
    (hfits : ¬Overflows rounded (tailRoom mem prev)) :
    expandSize mem rounded prev = growth rounded (tailRoom mem prev) := by
  have hheader : headerSize = 17 := rfl
  have hthreshold : heapThreshold = 65536 := rfl
  unfold Overflows at hfits
  push Not at hfits
  obtain ⟨hsum, hceil⟩ := hfits
  have hneeded :
      (if prev ≠ 0 ∧ usedOf mem prev = false then
        if sizeOf mem prev < u32 (rounded + headerSize) then
          sub32 (u32 (rounded + headerSize)) (sizeOf mem prev)
        else 0
      else u32 (rounded + headerSize)) =
        rounded + headerSize - tailRoom mem prev := by
    rw [u32_of_lt hsum]
    unfold tailRoom
    by_cases hfree : prev ≠ 0 ∧ usedOf mem prev = false
    · have hlt := hunfit hfree.2
      rw [if_pos hfree, if_pos hfree, if_pos (by omega),
        sub32_of_le (by omega) hsum]
    · rw [if_neg hfree, if_neg hfree, Nat.sub_zero]
  unfold expandSize growth
  simp only [hneeded]
  generalize rounded + headerSize - tailRoom mem prev = needed at hceil
  rw [ceilDiv_threshold (by omega), hthreshold, u32_of_lt (by omega)]
  split_ifs with hzero
  · omega
  · omega

theorem expandSize_overflows
    (hunfit : usedOf mem prev = false → sizeOf mem prev < rounded)
    (hrounded : rounded ≤ 0xFFFFFFF8)
    (hover : Overflows rounded (tailRoom mem prev)) :
    expandSize mem rounded prev = heapThreshold := by
  have hheader : headerSize = 17 := rfl
  have hthreshold : heapThreshold = 65536 := rfl
  have hceil (needed : ℕ) (h : needed ≤ 9 ∨ needed < 4294967296 ∧
      4294967296 < needed + heapThreshold) :
      ceilDiv needed heapThreshold = 0 ∨ ceilDiv needed heapThreshold = 1 := by
    unfold ceilDiv sub32 u32
    rw [hthreshold] at *
    omega
  have hexpand (needed : ℕ) (h : needed ≤ 9 ∨ needed < 4294967296 ∧
      4294967296 < needed + heapThreshold) :
      (if u32 (ceilDiv needed heapThreshold * heapThreshold) = 0 then
        heapThreshold
      else u32 (ceilDiv needed heapThreshold * heapThreshold)) =
        heapThreshold := by
    rcases hceil needed h with hzero | hone
    · rw [hzero, if_pos (by simp [u32])]
    · rw [hone, Nat.one_mul, u32_of_lt (by omega), if_neg (by omega)]
  unfold expandSize
  apply hexpand
  unfold Overflows tailRoom at hover
  by_cases hsum : rounded + headerSize < 4294967296
  · have hlarge := hover.resolve_left (by omega)
    rw [u32_of_lt hsum]
    right
    by_cases hfree : prev ≠ 0 ∧ usedOf mem prev = false
    · have hlt := hunfit hfree.2
      rw [if_pos hfree] at hlarge ⊢
      rw [if_pos (by omega), sub32_of_le (by omega) hsum]
      omega
    · rw [if_neg hfree] at hlarge ⊢
      omega
  · left
    have hsmall : u32 (rounded + headerSize) ≤ 9 := by
      unfold u32
      omega
    split_ifs with hfree hlt
    · rw [sub32_of_le (by omega) (by omega)]
      omega
    · omega
    · exact hsmall

/-- For no payload at all one threshold is enough. -/
theorem expandSize_zero
    (hused : usedOf mem prev = false → sizeOf mem prev < 0) :
    expandSize mem 0 prev = heapThreshold := by
  have hroom : tailRoom mem prev = 0 := Nat.le_zero.1 (tailRoom_le hused)
  have hfits : ¬Overflows 0 (tailRoom mem prev) := by
    rw [hroom]
    norm_num [Overflows, headerSize, heapThreshold]
  rw [expandSize_exact hused hfits, hroom]
  norm_num [growth, headerSize, heapThreshold]

end

/-! ## Growing the heap -/

theorem changeHeapSize_keeps
    {newHeapSize : ℤ} {s grown : State}
    (hgrow : changeHeapSize newHeapSize s = .ok grown) :
    grown.mem = s.mem ∧ grown.heapHead = s.heapHead ∧
      grown.heapStart = s.heapStart := by
  obtain ⟨vm, -, hnext⟩ := Outcome.bind_eq_ok.mp hgrow
  cases hnext
  exact ⟨rfl, rfl, rfl⟩

/-- A new size past the range of `int` maps nothing. -/
theorem changeHeapSize_past
    {s : State} {t : ℕ} (hpages : s.heapSize % 65536 = 0)
    (hbound : s.heapSize ≤ 0x10000000) (ht : t % 65536 = 0)
    (hhigh : 2147483648 ≤ t) (hlow : t < s.heapSize + 4294967296) :
    ∃ heapSize, changeHeapSize (toInt (u32 t)) s =
      .ok { s with heapSize := heapSize } := by
  have hold : toInt (ceilDiv s.heapSize 0x1000) = (s.heapSize / 4096 : ℕ) := by
    rw [ceilDiv_page (by omega) (by omega), toInt_of_lt (by omega)]
  have hnone : ((toInt (u32 t) + 0x1000 - 1).tdiv 0x1000 -
      toInt (ceilDiv s.heapSize 0x1000)).toNat = 0 := by
    rw [hold]
    unfold toInt u32
    rcases Nat.lt_or_ge t 4294967296 with hlt | hge
    · rw [Nat.mod_eq_of_lt hlt, if_neg (by omega)]
      have hneg : 0 ≤ ((t : ℤ) - 2 ^ 32 + 0x1000 - 1).tdiv (-0x1000) :=
        Int.tdiv_nonneg_of_nonpos_of_nonpos (by omega) (by norm_num)
      rw [Int.tdiv_neg] at hneg
      omega
    · have hmod : t % 4294967296 = t - 4294967296 := by omega
      rw [hmod, if_pos (by omega), Int.tdiv_eq_ediv_of_nonneg (by omega)]
      omega
  unfold changeHeapSize
  dsimp only
  rw [hnone]
  exact ⟨_, rfl⟩

/-- The heap grows behind `prev`, and its new block can be written. -/
def Stores (s : State) (rounded prev : ℕ) : Prop :=
  ∃ grown,
    changeHeapSize (toInt (u32 (s.heapSize + expandSize s.mem rounded prev))) s =
        .ok grown ∧
      touchPage (u32 (s.heapStart + s.heapSize)) grown.vm = .ok ()

/-- A growing `kmalloc` that does not come to a store halts. -/
theorem growAndTake_unstored
    {s : State} {rounded prev : ℕ} (hnone : ¬Stores s rounded prev) :
    ∃ halt, growAndTake rounded prev s = .error halt ∧ halt ≠ .endless ∧
      (changeHeapSize
          (toInt (u32 (s.heapSize + expandSize s.mem rounded prev))) s =
            .error halt ∨
        ∃ grown, changeHeapSize
            (toInt (u32 (s.heapSize + expandSize s.mem rounded prev))) s =
              .ok grown ∧
          grown.mem = s.mem ∧ grown.heapHead = s.heapHead ∧
          touchPage (u32 (s.heapStart + s.heapSize)) grown.vm =
            .error halt) := by
  rw [growAndTake_lastBlock]
  cases hresize : changeHeapSize
      (toInt (u32 (s.heapSize + expandSize s.mem rounded prev))) s with
  | error halt =>
      have hends := changeHeapSize_ends
        (toInt (u32 (s.heapSize + expandSize s.mem rounded prev))) s
      rw [hresize] at hends
      exact ⟨halt, rfl, by simpa [Outcome.Ends] using hends, .inl rfl⟩
  | ok grown =>
      obtain ⟨hmem, hhead, hstart⟩ := changeHeapSize_keeps hresize
      cases htouch : touchPage (u32 (s.heapStart + s.heapSize)) grown.vm with
      | ok _ => exact absurd ⟨grown, hresize, htouch⟩ hnone
      | error halt =>
          have hends := touchPage_ends (u32 (s.heapStart + s.heapSize)) grown.vm
          rw [htouch] at hends
          refine ⟨halt, ?_, by simpa [Outcome.Ends] using hends,
            .inr ⟨grown, rfl, hmem, hhead, htouch⟩⟩
          simp only [bind, Except.bind, hstart, htouch]

/-- A growing `kmalloc` that returns comes to its first store. -/
theorem growAndTake_stores
    {s : State} {rounded prev : ℕ} {result : ℕ × State}
    (hgrow : growAndTake rounded prev s = .ok result) : Stores s rounded prev := by
  by_contra hnone
  obtain ⟨halt, hhalt, -⟩ := growAndTake_unstored hnone
  rw [hgrow] at hhalt
  cases hhalt

theorem Inv.canGrow_iff
    {s : State} {cells : List Cell} {rounded prev : ℕ} (h : Inv s cells)
    (hexpand : expandSize s.mem rounded prev = heapThreshold) :
    Stores s rounded prev ↔ CanGrow s := by
  have hbound := h.heapSize_le
  have hkernel := kernelMalloc_eq
  have hthreshold : heapThreshold = 65536 := rfl
  unfold Stores CanGrow
  rw [hexpand, u32_of_lt (n := s.heapSize + heapThreshold) (by omega),
    toInt_of_lt (by omega), h.start, u32_of_lt (by omega)]

/-- The block that is cut is the new one or the one before it. -/
theorem lastBlock_fst (oldHeapSize prev : ℕ) (s : State) :
    (lastBlock oldHeapSize prev s).1 = u32 (s.heapStart + oldHeapSize) ∨
      (lastBlock oldHeapSize prev s).1 = prev := by
  unfold lastBlock joinLast
  dsimp only
  split_ifs
  all_goals first | exact .inl rfl | exact .inr rfl

theorem growAndTake_ptr
    {s next : State} {rounded ptr : ℕ} {front : List Cell} {last : Cell}
    (h : Inv s (front ++ [last]))
    (hgrow : growAndTake rounded (kernelMalloc + extent front) s =
      .ok (ptr, next)) :
    ptr ≠ 0 := by
  have hbound := h.heapSize_le
  have hsize := h.extent_eq
  have hkernel := kernelMalloc_eq
  have hheader : headerSize = 17 := rfl
  simp only [extent_append, extent_cons, extent_nil] at hsize
  rw [growAndTake_lastBlock] at hgrow
  obtain ⟨grown, hresize, hgrow⟩ := Outcome.bind_eq_ok.mp hgrow
  obtain ⟨-, -, hgrow⟩ := Outcome.bind_eq_ok.mp hgrow
  obtain ⟨-, -, hgrow⟩ := Outcome.bind_eq_ok.mp hgrow
  cases hgrow
  rcases lastBlock_fst s.heapSize (kernelMalloc + extent front) grown with
    hblock | hblock
  · rw [hblock, (changeHeapSize_keeps hresize).2.2, h.start,
      u32_of_lt (n := kernelMalloc + s.heapSize) (by omega),
      u32_of_lt (by omega)]
    omega
  · rw [hblock, u32_of_lt (by omega)]
    omega

/-! ## Served requests -/

/-- Every byte of the heap lies in a mapped page. -/
def Backed (s : State) (pages : List ℕ) : Prop :=
  ∀ address, kernelMalloc ≤ address → address < kernelMalloc + s.heapSize →
    address / 0x1000 * 0x1000 ∈ pages

theorem mem_heapPages
    {heapSize grown address : ℕ} (hpages : heapSize % 4096 = 0)
    (hgrown : grown % 4096 = 0) (hlimit : heapSize + grown ≤ 0x10000000)
    (hlow : kernelMalloc + heapSize ≤ address)
    (hhigh : address < kernelMalloc + (heapSize + grown)) :
    address / 0x1000 * 0x1000 ∈ heapPages (heapSize + grown : ℕ) heapSize := by
  have hkernel := kernelMalloc_eq
  have hold : toInt (ceilDiv heapSize 0x1000) = (heapSize / 4096 : ℕ) := by
    rw [ceilDiv_page hpages (by omega), toInt_of_lt (by omega)]
  have hnew : (((heapSize + grown : ℕ) : ℤ) + 0x1000 - 1).tdiv 0x1000 =
      ((heapSize + grown) / 4096 : ℕ) := by
    rw [Int.tdiv_eq_ediv_of_nonneg (by omega)]
    omega
  unfold heapPages
  simp only [hold, hnew, List.mem_map, List.mem_range]
  refine ⟨(address - kernelMalloc - heapSize) / 4096, by omega, ?_⟩
  have hoffset : ((heapSize / 4096 : ℕ) +
      ((address - kernelMalloc - heapSize) / 4096 : ℕ) : ℤ) * 0x1000 =
        (address / 0x1000 * 0x1000 - kernelMalloc : ℕ) := by
    omega
  rw [hoffset, ofInt_natCast (by omega), u32_of_lt (by omega)]
  omega

theorem freeTail_le (cells : List Cell) : freeTail cells ≤ extent cells := by
  rcases List.eq_nil_or_concat cells with rfl | ⟨front, last, rfl⟩
  · exact Nat.zero_le _
  · unfold freeTail
    simp only [List.concat_eq_append, List.getLast?_append,
      List.getLast?_singleton, Option.some_or, extent_append, extent_cons,
      Cell.span]
    split_ifs <;> omega

theorem tailRoom_eq
    {s : State} {front : List Cell} {last : Cell}
    (h : Inv s (front ++ [last])) :
    tailRoom s.mem (kernelMalloc + extent front) =
      freeTail (front ++ [last]) := by
  have hkernel := kernelMalloc_eq
  have hrepresents : Represents s.mem 0 0 kernelMalloc
      (front ++ [last] ++ []) := by
    simpa using h.represents
  have hused : usedOf s.mem (kernelMalloc + extent front) = last.used :=
    congrArg Header.used hrepresents.header
  have hsize : sizeOf s.mem (kernelMalloc + extent front) = last.size :=
    congrArg Header.size hrepresents.header
  unfold tailRoom freeTail
  rw [hused, hsize]
  simp only [List.getLast?_append, List.getLast?_singleton, Option.some_or]
  by_cases hfree : last.used = false
  · rw [if_pos ⟨by omega, hfree⟩, hfree]
    rfl
  · rw [if_neg (by tauto), if_pos (by simpa using hfree)]

theorem Unfit.lastFree
    {s : State} {front : List Cell} {last : Cell} {rounded : ℕ}
    (hunfit : Unfit rounded last) (h : Inv s (front ++ [last]))
    (hfree : usedOf s.mem (kernelMalloc + extent front) = false) :
    sizeOf s.mem (kernelMalloc + extent front) < rounded := by
  have hrepresents : Represents s.mem 0 0 kernelMalloc
      (front ++ [last] ++ []) := by
    simpa using h.represents
  have hused : usedOf s.mem (kernelMalloc + extent front) = last.used :=
    congrArg Header.used hrepresents.header
  have hsize : sizeOf s.mem (kernelMalloc + extent front) = last.size :=
    congrArg Header.size hrepresents.header
  rw [hused] at hfree
  rw [hsize]
  rcases hunfit with hlast | hlt
  · rw [hfree] at hlast
    cases hlast
  · exact hlt

/-- The frame bitmap bounds what a growing `kmalloc` can serve. -/
theorem growth_le
    {s grown : State} {cells : List Cell} {more : ℕ} (h : Inv s cells)
    (hmore : more % 65536 = 0) (hlimit : s.heapSize + more < 2147483648)
    (hresize : changeHeapSize (s.heapSize + more : ℕ) s = .ok grown) :
    more ≤ 0x10000000 := by
  have hthreshold : heapThreshold = 65536 := rfl
  have hpages := h.thresholds
  rw [hthreshold] at hpages
  obtain ⟨vm, -, hcard⟩ := changeHeapSize_spec (by omega) (by omega)
    (Nat.le_add_right _ _) hlimit hresize
  have htop := vm.frames.card_allocated_le
  simp only [numPageFrames] at htop
  omega

theorem growth_spec
    {rounded tail : ℕ} (hfits : ¬Overflows rounded tail) :
    growth rounded tail % 65536 = 0 ∧ 65536 ≤ growth rounded tail ∧
      rounded + headerSize ≤ tail + growth rounded tail ∧
      growth rounded tail < 4294967296 := by
  have hheader : headerSize = 17 := rfl
  have hthreshold : heapThreshold = 65536 := rfl
  unfold Overflows at hfits
  push Not at hfits
  unfold growth
  rw [hthreshold] at *
  omega

/-- The heap grows for a request, and its new block can be written. -/
def StoresFor (s : State) (size : ℕ) : Prop :=
  ∀ prev, search s.mem (u32 (size + 7) / 8 * 8) (s.heapSize + 1) s.heapHead 0 =
      .ok (.missed prev) →
    Stores s (u32 (size + 7) / 8 * 8) prev

/-- A request that does not fail and comes to a store is small, and its values are
exact. -/
theorem small_of_not_fails
    {s : State} {cells : List Cell} {size : ℕ} (h : Inv s cells)
    (hpositive : 0 < size) (hsize : size < 4294967296)
    (hstores : StoresFor s size) (hfine : ¬Fails s cells size) :
    size < 0x40000000 ∧ Unwrapped s size := by
  have hbound := h.heapSize_le
  have hextent := h.extent_eq
  have hthreshold : heapThreshold = 65536 := rfl
  have hpages := h.thresholds
  rw [hthreshold] at hpages
  unfold Fails at hfine
  rcases kmalloc_eq h hpositive with
    ⟨front, cell, back, rfl, hfree, hfit, hsearch, -⟩ |
      ⟨front, last, rfl, hunfit, hsearch, -⟩
  · have hlow : size ≤ 0xFFFFFFF8 := by
      by_contra hhigh
      rw [if_pos (by omega)] at hfine
      exact hfine (.inl ⟨cell, by simp, hfree⟩)
    rw [roundUp_eq hlow] at hfit hsearch
    have hcell : cell.size ≤ s.heapSize := by
      rw [← hextent]
      simp only [extent_append, extent_cons, Cell.span]
      omega
    have hroom : sizeOf s.mem (kernelMalloc + extent front) = cell.size :=
      congrArg Header.size h.represents.header
    refine ⟨?_, by omega, ?_⟩
    · unfold roundUp at hfit
      omega
    · rw [hsearch]
      dsimp only
      rw [hroom]
      exact hfit
  · have hstore := hstores _ hsearch
    have hlow : size ≤ 0xFFFFFFF8 := by
      by_contra hhigh
      rw [if_pos (by omega)] at hfine
      apply hfine
      right
      rw [roundUp_wraps (by omega) hsize] at hunfit hstore
      have hlast := (hunfit last (by simp)).lastFree h
      exact (h.canGrow_iff (expandSize_zero hlast)).1 hstore
    rw [if_neg (by omega)] at hfine
    rw [roundUp_eq hlow] at hunfit hstore hsearch
    have hlast := (hunfit last (by simp)).lastFree h
    have hrounded : roundUp size ≤ 0xFFFFFFF8 := by
      unfold roundUp
      omega
    rw [← tailRoom_eq h] at hfine
    have hfits : ¬Overflows (roundUp size)
        (tailRoom s.mem (kernelMalloc + extent front)) := by
      intro hover
      have hexpand := expandSize_overflows hlast hrounded hover
      exact hfine ⟨hunfit, .inl ⟨hover, (h.canGrow_iff hexpand).1 hstore⟩⟩
    have hexpand := expandSize_exact hlast hfits
    obtain ⟨hmultiple, hleast, henough, hmost⟩ := growth_spec hfits
    obtain ⟨grown, hresize, htouch⟩ := hstore
    have hkernel := kernelMalloc_eq
    rw [h.start, u32_of_lt (n := kernelMalloc + s.heapSize) (by omega)] at htouch
    have hargument : s.heapSize + growth (roundUp size)
        (tailRoom s.mem (kernelMalloc + extent front)) < 2147483648 := by
      by_contra hpast
      obtain ⟨heapSize, hpassed⟩ := changeHeapSize_past hpages hbound
        (t := s.heapSize + growth (roundUp size)
          (tailRoom s.mem (kernelMalloc + extent front)))
        (by omega) (by omega) (by omega)
      rw [hexpand, hpassed] at hresize
      cases hresize
      exact hfine ⟨hunfit, .inr ⟨hfits, by omega, htouch⟩⟩
    have hexact := hresize
    rw [hexpand, u32_of_lt (by omega), toInt_of_lt hargument] at hexact
    have hfew := growth_le h hmultiple hargument hexact
    have htail := freeTail_le (front ++ [last])
    rw [← tailRoom_eq h, hextent] at htail
    have hroundedFew : roundUp size ≤ 0x30000000 := by omega
    have hsizeFew : size ≤ roundUp size := by
      unfold roundUp
      omega
    refine ⟨by omega, by omega, ?_⟩
    rw [hsearch]
    refine ⟨?_, hexpand, ?_, ?_⟩
    · unfold Overflows at hfits
      omega
    · rw [hexpand, u32_of_lt (by omega), toInt_of_lt hargument]
    · intro grown' hresize'
      obtain ⟨more, vm, front', cell, joined, -, rfl, hcut, -, -, -, -, -, -,
        hjoined, -, hfit, -, -⟩ := lastBlock_spec h (hroundedFew.trans (by norm_num))
          (hunfit last (by simp)) hresize'
      rw [hcut]
      have hroom : sizeOf joined (kernelMalloc + extent front') = cell.size :=
        congrArg Header.size hjoined.header
      dsimp only
      rw [hroom]
      exact hfit

theorem kmalloc_storesFor
    {s next : State} {cells : List Cell} {size ptr : ℕ} (h : Inv s cells)
    (hpositive : 0 < size) (hcall : kmalloc size s = .ok (ptr, next)) :
    StoresFor s size := by
  intro prev hmissed
  rcases kmalloc_eq h hpositive with
    ⟨front, cell, back, -, -, -, hsearch, -⟩ | ⟨front, last, -, -, hsearch, hgrow⟩
  · rw [hsearch] at hmissed
    cases hmissed
  · rw [hsearch] at hmissed
    cases hmissed
    rw [hgrow] at hcall
    exact growAndTake_stores hcall

theorem growArgument_eq
    {s : State} {size prev : ℕ} (hpositive : 0 < size)
    (hsearch : search s.mem (u32 (size + 7) / 8 * 8) (s.heapSize + 1)
      s.heapHead 0 = .ok (.missed prev)) :
    growArgument s size = some (toInt (u32 (s.heapSize +
      expandSize s.mem (u32 (size + 7) / 8 * 8) prev))) := by
  unfold growArgument
  rw [if_neg (by omega), hsearch]

/-- A request that comes to a store does not halt in front of it. -/
theorem Stores.not_haltsUnstored
    {s : State} {size prev : ℕ} {halt : Halt} (hpositive : 0 < size)
    (hsearch : search s.mem (u32 (size + 7) / 8 * 8) (s.heapSize + 1)
      s.heapHead 0 = .ok (.missed prev))
    (hstores : Stores s (u32 (size + 7) / 8 * 8) prev) :
    ¬HaltsUnstored s size halt := by
  rintro ⟨-, newHeapSize, hargument, hhalt⟩
  rw [growArgument_eq hpositive hsearch, Option.some.injEq] at hargument
  subst hargument
  obtain ⟨grown, hresize, htouch⟩ := hstores
  rcases hhalt with herror | ⟨other, hother, -, -, herror⟩
  · rw [hresize] at herror
    cases herror
  · rw [hresize, Except.ok.injEq] at hother
    subst hother
    rw [htouch] at herror
    cases herror

theorem growth_zero (tail : ℕ) : growth 0 tail = heapThreshold := by
  have hheader : headerSize = 17 := rfl
  have hthreshold : heapThreshold = 65536 := rfl
  unfold growth
  rw [hheader, hthreshold]
  refine max_eq_left ?_
  omega

theorem growth_overflows
    {rounded tail : ℕ}
    (hover : 4294967296 < rounded + headerSize - tail + heapThreshold) :
    4294967296 ≤ growth rounded tail := by
  have hthreshold : heapThreshold = 65536 := rfl
  refine le_trans ?_ (le_max_right _ _)
  rw [hthreshold] at hover ⊢
  omega

theorem toInt_lt (n : ℕ) (hn : n < 4294967296) : toInt n < 2147483648 := by
  unfold toInt
  split_ifs <;> omega

/-- A request that fails comes to a store with a wrapped value all the same. -/
theorem Fails.stores
    {s : State} {cells : List Cell} {size : ℕ} (hfails : Fails s cells size)
    (h : Inv s cells) (hsize : size < 4294967296) :
    ¬Unwrapped s size ∧
      ((∃ ptr next, kmalloc size s = .ok (ptr, next) ∧ ptr ≠ 0) ∨
        ∃ front last, cells = front ++ [last] ∧ 0 < size ∧
          search s.mem (u32 (size + 7) / 8 * 8) (s.heapSize + 1) s.heapHead 0 =
            .ok (.missed (kernelMalloc + extent front)) ∧
          kmalloc size s = growAndTake (u32 (size + 7) / 8 * 8)
            (kernelMalloc + extent front) s ∧
          Stores s (u32 (size + 7) / 8 * 8) (kernelMalloc + extent front)) := by
  have hbound := h.heapSize_le
  have hextent := h.extent_eq
  have hkernel := kernelMalloc_eq
  have hheader : headerSize = 17 := rfl
  have hthreshold : heapThreshold = 65536 := rfl
  have hpages := h.thresholds
  rw [hthreshold] at hpages
  unfold Fails at hfails
  rcases Nat.eq_zero_or_pos size with rfl | hpositive
  · rw [if_neg (by norm_num)] at hfails
    obtain ⟨-, ⟨hover, -⟩ | ⟨-, hpast, -⟩⟩ := hfails
    · rw [show roundUp 0 = 0 from rfl] at hover
      unfold Overflows at hover
      omega
    · rw [show roundUp 0 = 0 from rfl, growth_zero] at hpast
      omega
  rcases kmalloc_eq h hpositive with
    ⟨front, cell, back, rfl, hfree, hfit, -, hcall⟩ |
      ⟨front, last, rfl, hunfit, hsearch, hgrow⟩
  · have hhigh : 0xFFFFFFF8 < size := by
      by_contra hlow
      rw [if_neg hlow] at hfails
      rw [roundUp_eq (by omega)] at hfit
      rcases hfails.1 cell (by simp) with hused | hlt
      · rw [hfree] at hused
        cases hused
      · omega
    refine ⟨fun hexact => ?_, .inl ⟨_, _, hcall, ?_⟩⟩
    · have hrounding := hexact.1
      omega
    · simp only [extent_append, extent_cons] at hextent
      have hspan := headerSize_le_span cell
      rw [u32_of_lt (by omega)]
      omega
  · suffices hgoal : ¬Unwrapped s size ∧
        Stores s (u32 (size + 7) / 8 * 8) (kernelMalloc + extent front) from
      ⟨hgoal.1, .inr ⟨front, last, rfl, hpositive, hsearch, hgrow, hgoal.2⟩⟩
    by_cases hhigh : 0xFFFFFFF8 < size
    · rw [if_pos hhigh] at hfails
      rw [roundUp_wraps hhigh hsize] at hunfit ⊢
      have hcan : CanGrow s := by
        rcases hfails with ⟨cell, hmem, hfree⟩ | hcan
        · rcases hunfit cell hmem with hused | hlt
          · rw [hfree] at hused
            cases hused
          · omega
        · exact hcan
      have hlast := (hunfit last (by simp)).lastFree h
      refine ⟨fun hexact => ?_, (h.canGrow_iff (expandSize_zero hlast)).2 hcan⟩
      have hrounding := hexact.1
      omega
    · rw [if_neg hhigh, ← tailRoom_eq h] at hfails
      rw [roundUp_eq (by omega)] at hunfit hsearch ⊢
      have hlast := (hunfit last (by simp)).lastFree h
      have hrounded : roundUp size ≤ 0xFFFFFFF8 := by
        unfold roundUp
        omega
      have hwrapped (hexact : Unwrapped s size) :
          GrowsExactly s (roundUp size) (kernelMalloc + extent front) := by
        have hgrows := hexact.2
        rw [hsearch] at hgrows
        exact hgrows
      obtain ⟨-, ⟨hover, hcan⟩ | ⟨hfits, hpast, htouch⟩⟩ := hfails
      · have hexpand := expandSize_overflows hlast hrounded hover
        refine ⟨fun hexact => ?_, (h.canGrow_iff hexpand).2 hcan⟩
        have hneeded := (hwrapped hexact).needed
        have hgrowth := (hwrapped hexact).expand
        rw [hexpand] at hgrowth
        rcases hover with hsum | hceil
        · omega
        · have hlarge := growth_overflows hceil
          omega
      · have hexpand := expandSize_exact hlast hfits
        obtain ⟨hmultiple, -, -, hmost⟩ := growth_spec hfits
        obtain ⟨heapSize, hpassed⟩ := changeHeapSize_past hpages hbound
          (t := s.heapSize + growth (roundUp size)
            (tailRoom s.mem (kernelMalloc + extent front)))
          (by omega) hpast (by omega)
        rw [← hexpand] at hpassed
        refine ⟨fun hexact => ?_, _, hpassed, ?_⟩
        swap
        · rw [h.start, u32_of_lt (n := kernelMalloc + s.heapSize) (by omega)]
          exact htouch
        have hargument := (hwrapped hexact).argument
        have hint := toInt_lt _ (u32_lt (s.heapSize + expandSize s.mem
          (roundUp size) (kernelMalloc + extent front)))
        rw [hargument] at hint
        exact absurd hpast (Nat.not_le.2 (by exact_mod_cast hint))

/-- The pages of the heap stay mapped, and new ones are mapped for it. -/
theorem kmalloc_backed
    {s next : State} {cells : List Cell} {pages : List ℕ} {size ptr : ℕ}
    (h : Inv s cells) (hbacked : Backed s pages) (hsize : size < 0x40000000)
    (hcall : kmalloc size s = .ok (ptr, next)) :
    Backed next (pages ++ grownPages s size) := by
  have hthreshold : heapThreshold = 65536 := rfl
  have hpages := h.thresholds
  rw [hthreshold] at hpages
  rcases Nat.eq_zero_or_pos size with rfl | hpositive
  · have hsame : (0, s) = (ptr, next) := by
      unfold kmalloc at hcall
      rw [h.kmallocInit_eq] at hcall
      exact Except.ok.inj hcall
    cases hsame
    intro address hlow hhigh
    exact List.mem_append_left _ (hbacked address hlow hhigh)
  rcases kmalloc_eq h hpositive with
    ⟨front, cell, back, -, -, -, -, htaken⟩ |
      ⟨front, last, rfl, hunfit, hsearch, hgrow⟩
  · rw [htaken] at hcall
    cases hcall
    intro address hlow hhigh
    exact List.mem_append_left _ (hbacked address hlow hhigh)
  · rw [hgrow, growAndTake_lastBlock] at hcall
    obtain ⟨grown, hresize, hcall⟩ := Outcome.bind_eq_ok.mp hcall
    obtain ⟨-, -, hcall⟩ := Outcome.bind_eq_ok.mp hcall
    obtain ⟨-, -, hcall⟩ := Outcome.bind_eq_ok.mp hcall
    have hrounded : u32 (size + 7) / 8 * 8 ≤ 0x40000000 := by
      rw [u32_of_lt (by omega)]
      omega
    obtain ⟨more, vm, front', cell, joined, hexpand, rfl, -, hlimit, hmultiple,
      -⟩ := lastBlock_spec h hrounded (hunfit last (by simp)) hresize
    cases hcall
    rw [hthreshold] at hmultiple
    intro address hlow hhigh
    rcases Nat.lt_or_ge address (kernelMalloc + s.heapSize) with hold | hnew
    · exact List.mem_append_left _ (hbacked address hlow hold)
    · apply List.mem_append_right
      unfold grownPages
      rw [growArgument_eq hpositive hsearch]
      dsimp only
      rw [hexpand, u32_of_lt (by omega), toInt_of_lt (by omega)]
      exact mem_heapPages (by omega) (by omega) hlimit hnew hhigh

/-- A request that does not fail halts in front of its first store, if it halts. -/
theorem kmalloc_halts
    {s : State} {cells : List Cell} {size : ℕ} {halt : Halt} (h : Inv s cells)
    (hpositive : 0 < size) (hsize : size < 4294967296)
    (hcall : kmalloc size s = .error halt) (hfine : ¬Fails s cells size) :
    HaltsUnstored s size halt := by
  rcases kmalloc_eq h hpositive with
    ⟨front, cell, back, -, -, -, -, htaken⟩ |
      ⟨front, last, rfl, hunfit, hsearch, hgrow⟩
  · rw [htaken] at hcall
    cases hcall
  rw [hgrow] at hcall
  by_cases hstore : Stores s (u32 (size + 7) / 8 * 8) (kernelMalloc + extent front)
  · have hstores : StoresFor s size := by
      intro prev hmissed
      rw [hsearch] at hmissed
      cases hmissed
      exact hstore
    obtain ⟨hfew, -⟩ := small_of_not_fails h hpositive hsize hstores hfine
    have hrounded : u32 (size + 7) / 8 * 8 ≤ 0x40000000 := by
      rw [u32_of_lt (by omega)]
      omega
    obtain ⟨grown, hresize, htouch⟩ := hstore
    obtain ⟨more, vm, front', cell, joined, -, rfl, hcut, hlimit, -, -, -, -, -,
      hjoined, -, hfit, hextents, -⟩ :=
      lastBlock_spec h hrounded (hunfit last (by simp)) hresize
    have hsplit := @touchSplit_last joined
      { s with vm := vm, heapSize := s.heapSize + more } _ _ _ hjoined hfit
      hextents hlimit
    rw [growAndTake_lastBlock, hresize] at hcall
    simp only [bind, Except.bind, htouch, hcut, hsplit] at hcall
    cases hcall
  · obtain ⟨halt', hhalt, hends, hstage⟩ := growAndTake_unstored hstore
    rw [hhalt, Except.error.injEq] at hcall
    subst hcall
    exact ⟨hends, _, growArgument_eq hpositive hsearch, hstage⟩

/-- A request is served as it should be exactly when it does not fail. -/
theorem served_iff
    {s : State} {cells : List Cell} {pages : List ℕ} {size : ℕ}
    (h : Inv s cells) (hbacked : Backed s pages) (hsize : size < 4294967296) :
    Served s pages size ↔ ¬Fails s cells size := by
  constructor
  · intro hserved hfails
    obtain ⟨hinexact, hstores⟩ := hfails.stores h hsize
    unfold Served at hserved
    rcases hstores with ⟨ptr, next, hcall, hptr⟩ |
      ⟨front, last, rfl, hpositive, hsearch, hgrow, hstore⟩
    · rw [hcall] at hserved
      simp only [if_neg hptr] at hserved
      exact hinexact hserved.2.2
    · cases hcall : kmalloc size s with
      | error halt =>
          rw [hcall] at hserved
          exact hstore.not_haltsUnstored hpositive hsearch hserved
      | ok result =>
          obtain ⟨ptr, next⟩ := result
          rw [hcall] at hserved
          rw [hgrow] at hcall
          simp only [if_neg (growAndTake_ptr h hcall)] at hserved
          exact hinexact hserved.2.2
  · intro hfine
    unfold Served
    cases hcall : kmalloc size s with
    | error halt =>
        rcases Nat.eq_zero_or_pos size with rfl | hpositive
        · unfold kmalloc at hcall
          rw [h.kmallocInit_eq] at hcall
          cases hcall
        · exact kmalloc_halts h hpositive hsize hcall hfine
    | ok result =>
        obtain ⟨ptr, next⟩ := result
        dsimp only
        rcases Nat.eq_zero_or_pos size with rfl | hpositive
        · unfold kmalloc at hcall
          rw [h.kmallocInit_eq] at hcall
          cases hcall
          rfl
        · obtain ⟨hfew, hexact⟩ :=
            small_of_not_fails h hpositive hsize
              (kmalloc_storesFor h hpositive hcall) hfine
          have hmapped := kmalloc_backed h hbacked hfew hcall
          obtain ⟨front, old, back, room, rest, -, -, -, hroom, rfl, -,
            hnext⟩ := kmalloc_spec h hpositive hfew hcall
          have hkernel := kernelMalloc_eq
          have hnextExtent := hnext.extent_eq
          have hrepresents : Represents next.mem 0 0 kernelMalloc
              (front ++ [⟨room, true⟩] ++ (rest ++ back)) := by
            simpa using hnext.represents
          have hpayload :
              sizeOf next.mem (kernelMalloc + extent front) = room :=
            congrArg Header.size hrepresents.header
          simp only [extent_append, extent_cons, Cell.span] at hnextExtent
          rw [if_neg (by omega), Nat.add_sub_cancel, hpayload]
          exact ⟨hroom, fun k hk => hmapped _ (by omega) (by omega), hexact⟩

/-! ## Histories with requests of any size -/

def Request.pages (s : State) : Request → List ℕ
  | .kmalloc size => grownPages s size
  | _ => []

/-- The requests of a client that asks for any 32-bit size, as long as no request
for memory fails. -/
def Client.Permits (client : Client) : Request → Prop
  | .kmalloc size =>
      size < 4294967296 ∧
        ∀ cells, BlockList client.heap cells → ¬Fails client.heap cells size
  | request => client.Allows request

/-- The clients that a history of such requests can lead to, with the pages that
`change_heap_size` has mapped for them. -/
inductive Client.Mapped : Client → List ℕ → Prop
  | boot {s heap : State} :
      s.kmallocInitalized = false → kmallocInit s = .ok heap →
        Mapped ⟨heap, []⟩ (heapPages heapThreshold 0)
  | step {client next : Client} {pages : List ℕ} {request : Request} :
      Mapped client pages → client.Permits request →
        client.serve request = .ok next →
          Mapped next (pages ++ request.pages client.heap)

theorem Client.Good.allows
    {client next : Client} {request : Request} (hgood : client.Good)
    (hpermitted : client.Permits request)
    (hserve : client.serve request = .ok next) : client.Allows request := by
  cases request with
  | kfree ptr => exact hpermitted
  | store address byte => exact hpermitted
  | kmalloc size =>
      obtain ⟨cells, hinv, -⟩ := hgood
      obtain ⟨⟨ptr, heap⟩, hcall, -⟩ := Outcome.bind_eq_ok.mp hserve
      rcases Nat.eq_zero_or_pos size with rfl | hpositive
      · exact Nat.zero_lt_succ _
      · exact (small_of_not_fails hinv hpositive hpermitted.1
          (kmalloc_storesFor hinv hpositive hcall)
          (hpermitted.2 cells hinv.blockList)).1

theorem Client.Mapped.reachable
    {client : Client} {pages : List ℕ} (hmapped : client.Mapped pages) :
    client.Reachable := by
  induction hmapped with
  | boot hfresh hinit => exact .boot hfresh hinit
  | step _ hpermitted hserve hreach =>
      exact hreach.step (hreach.good.allows hpermitted hserve) hserve

theorem Client.Mapped.backed
    {client : Client} {pages : List ℕ} (hmapped : client.Mapped pages) :
    Backed client.heap pages := by
  have hthreshold : heapThreshold = 65536 := rfl
  induction hmapped with
  | @boot s heap hfresh hinit =>
      have hsize : heap.heapSize = heapThreshold := by
        have hextent := (kmallocInit_spec hfresh hinit).extent_eq
        rw [← hextent]
        simp only [extent_cons, extent_nil, Cell.span, headerSize]
        omega
      intro address hlow hhigh
      rw [hsize] at hhigh
      have hmem : address / 0x1000 * 0x1000 ∈
          heapPages (0 + heapThreshold : ℕ) 0 :=
        mem_heapPages rfl (by omega) (by omega) hlow (by omega)
      rwa [Nat.zero_add] at hmem
  | @step client next pages request hprev hpermitted hserve hbacked =>
      obtain ⟨cells, hinv, -⟩ := hprev.reachable.good
      have hallowed := hprev.reachable.good.allows hpermitted hserve
      cases request with
      | kmalloc size =>
          obtain ⟨⟨ptr, heap⟩, hcall, hnext⟩ := Outcome.bind_eq_ok.mp hserve
          cases hnext
          exact kmalloc_backed hinv hbacked hallowed hcall
      | kfree ptr =>
          obtain ⟨heap, hcall, hnext⟩ := Outcome.bind_eq_ok.mp hserve
          cases hnext
          have hsame := hinv.kfree_heapSize hcall
          intro address hlow hhigh
          rw [hsame] at hhigh
          exact List.mem_append_left _ (hbacked address hlow hhigh)
      | store address byte =>
          cases hserve
          intro address hlow hhigh
          exact List.mem_append_left _ (hbacked address hlow hhigh)

theorem kmallocInit_boot :
    ∃ heap, kmallocInit bootState = .ok heap ∧
      Client.Mapped ⟨heap, []⟩ (heapPages heapThreshold 0) ∧
      BlockList heap [⟨65519, false⟩] ∧
      (kmalloc 0xFFFFFFFF heap).satisfies (fun result =>
        result.1 = 0xD0000011 ∧ sizeOf result.2.mem 0xD0000000 = 0) = true := by
  have hrun : (kmallocInit bootState).satisfies (fun heap =>
      (kmalloc 0xFFFFFFFF heap).satisfies fun result =>
        result.1 = 0xD0000011 ∧ sizeOf result.2.mem 0xD0000000 = 0) = true := by
    decide +kernel
  obtain ⟨heap, hinit, hcall⟩ := Outcome.exists_of_satisfies hrun
  exact ⟨heap, hinit, .boot rfl hinit,
    (kmallocInit_spec rfl hinit).blockList, hcall⟩

/-- Of `kmalloc(0xFFFFFFF8)` the header of the split lies over that of the new block,
and the store through its `next` leaves the heap. -/
example : (do
    let heap ← kmallocInit bootState
    return (← kmalloc 0xFFFFFFF8 heap).1 : Outcome ℕ) = .error .pageFault := by
  decide +kernel

end ClOs.Heap
