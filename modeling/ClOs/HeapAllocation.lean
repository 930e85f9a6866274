import ClOs.HeapEdits

/-!
# Allocation on layouts

The search loop of `kmalloc` and the growth of the heap, stated on layouts.
-/

namespace ClOs.Heap

open Memory

/-! ## The search loop -/

/-- A block that the search loop passes over. -/
def Unfit (size : ℕ) (cell : Cell) : Prop :=
  cell.used = true ∨ cell.size < size

/-- With enough fuel the search loop stops at the first fitting block, or
behind the last block when none fits. -/
theorem search_spec
    {mem : ByteStore} {fuel prev address : ℕ} {cells : List Cell}
    (size : ℕ) (h : Represents mem 0 prev address cells) (haddress : 0 < address)
    (hfuel : cells.length < fuel) :
    (∃ front cell back, cells = front ++ [cell] ++ back ∧
        (∀ other ∈ front, Unfit size other) ∧
        cell.used = false ∧ size ≤ cell.size ∧
        search mem size fuel (linkTo address cells 0) prev =
          .ok (.found (address + extent front))) ∨
      (∀ other ∈ cells, Unfit size other) ∧
        search mem size fuel (linkTo address cells 0) prev =
          .ok (.missed (lastAddress prev address cells)) := by
  induction cells generalizing fuel prev address with
  | nil =>
      obtain ⟨fuel, rfl⟩ : ∃ n, fuel = n + 1 := ⟨fuel - 1, by simp at hfuel; omega⟩
      exact .inr ⟨by simp, by simp [search]⟩
  | cons cell cells ih =>
      obtain ⟨fuel, rfl⟩ : ∃ n, fuel = n + 1 := ⟨fuel - 1, by simp at hfuel; omega⟩
      obtain ⟨hheader, htail⟩ := h
      have hused : usedOf mem address = cell.used :=
        congrArg Header.used hheader
      have hsize : sizeOf mem address = cell.size :=
        congrArg Header.size hheader
      have hnext :
          nextOf mem address = linkTo (address + cell.span) cells 0 :=
        congrArg Header.next hheader
      have hne : address ≠ 0 := by omega
      by_cases hfits : cell.used = false ∧ size ≤ cell.size
      · refine .inl ⟨[], cell, cells, by simp, by simp, hfits.1, hfits.2, ?_⟩
        simp [search, hne, hused, hsize, hfits]
      · have hunfit : Unfit size cell := by
          unfold Unfit
          by_cases hcell : cell.used = true
          · exact .inl hcell
          · have hfalse : cell.used = false := by simpa using hcell
            exact .inr (by_contra fun hlt => hfits ⟨hfalse, by omega⟩)
        have hstep :
            search mem size (fuel + 1)
                (linkTo address (cell :: cells) 0) prev =
              search mem size fuel
                (linkTo (address + cell.span) cells 0) address := by
          simp only [linkTo_cons, search, if_neg hne, hused, hsize,
            if_neg hfits, hnext]
        rw [hstep]
        rcases ih htail (by omega) (by simpa using hfuel) with
          ⟨front, found, back, rfl, hfront, hfree, hroom, hsearch⟩ |
            ⟨hall, hsearch⟩
        · refine .inl ⟨cell :: front, found, back, by simp, ?_, hfree, hroom,
            ?_⟩
          · simpa using ⟨hunfit, hfront⟩
          · rw [hsearch, extent_cons, Nat.add_assoc]
        · exact .inr ⟨by simpa using ⟨hunfit, hall⟩, hsearch⟩

/-! ## Growing the heap -/

/-- The page loop of `change_heap_size` sets at least one bitmap bit for each
page it maps. -/
theorem mapHeapPages_card
    {oldPageTop : ℤ} {count i : ℕ} {vm next : Vm}
    (hmap : mapHeapPages oldPageTop count i vm = .ok next) :
    vm.frames.allocated.card + count ≤ next.frames.allocated.card := by
  induction count generalizing i vm with
  | zero =>
      cases hmap
      simp
  | succ count ih =>
      obtain ⟨⟨phys, frames⟩, halloc, hmap⟩ := Outcome.bind_eq_ok.mp hmap
      have htaken := pmmAllocPageFrame_card halloc
      dsimp only at hmap
      by_cases hphys : phys = 0
      · rw [if_pos hphys] at hmap
        cases hmap
      · rw [if_neg hphys, Outcome.bind_eq_ok] at hmap
        obtain ⟨mapped, hmapped, hrest⟩ := hmap
        have hpage := memMapPage_card hmapped
        have hmore := ih hrest
        rw [if_neg hphys] at htaken
        dsimp only at hpage
        omega

theorem changeHeapSize_ends (newHeapSize : ℤ) (s : State) :
    (changeHeapSize newHeapSize s).Ends := by
  refine Outcome.Ends.bind ?_ fun _ _ => Outcome.ends_ok _
  generalize ((newHeapSize + 0x1000 - 1).tdiv 0x1000 -
    toInt (ceilDiv s.heapSize 0x1000)).toNat = count
  generalize toInt (ceilDiv s.heapSize 0x1000) = oldPageTop
  generalize 0 = i
  generalize s.vm = vm
  induction count generalizing i vm with
  | zero => exact Outcome.ends_ok _
  | succ count ih =>
      refine (pmmAllocPageFrame_ends _).bind fun taken _ => ?_
      dsimp only
      split_ifs
      · simp [Outcome.Ends]
      · exact (memMapPage_ends _ _ _ _).bind fun vm _ => ih (i + 1) vm

theorem toInt_of_lt {n : ℕ} (hn : n < 2147483648) : toInt n = n := by
  simp [toInt, hn]

theorem ofInt_natCast {n : ℕ} (hn : n < 4294967296) : ofInt n = n := by
  unfold ofInt
  omega

theorem ceilDiv_page {size : ℕ}
    (hpages : size % 4096 = 0) (hsize : size < 4294963200) :
    ceilDiv size 0x1000 = size / 4096 := by
  unfold ceilDiv
  rw [u32_of_lt (by omega), sub32_of_le (by omega) (by omega)]
  omega

/-- Growing a heap of whole pages to more whole pages. -/
theorem changeHeapSize_spec
    {s next : State} {t : ℕ}
    (hpages : s.heapSize % 4096 = 0) (ht : t % 4096 = 0)
    (hle : s.heapSize ≤ t) (hlimit : t < 2147483648)
    (hgrow : changeHeapSize t s = .ok next) :
    ∃ vm, next = { s with vm := vm, heapSize := t } ∧
      s.vm.frames.allocated.card + (t / 4096 - s.heapSize / 4096) ≤
        vm.frames.allocated.card := by
  obtain ⟨vm, hmap, hnext⟩ := Outcome.bind_eq_ok.mp hgrow
  cases hnext
  have hold : toInt (ceilDiv s.heapSize 0x1000) = (s.heapSize / 4096 : ℕ) := by
    rw [ceilDiv_page hpages (by omega), toInt_of_lt (by omega)]
  have hnew :
      ((t : ℤ) + 0x1000 - 1).tdiv 0x1000 = (t / 4096 : ℕ) := by
    rw [Int.tdiv_eq_ediv_of_nonneg (by omega)]
    omega
  have hsize :
      ofInt (((t : ℤ) + 0x1000 - 1).tdiv 0x1000 * 0x1000) = t := by
    rw [hnew,
      show ((t / 4096 : ℕ) : ℤ) * 0x1000 = (t : ℕ) by omega]
    exact ofInt_natCast (by omega)
  refine ⟨vm, by rw [hsize], ?_⟩
  · have hcard := mapHeapPages_card hmap
    rw [hold, hnew] at hcard
    omega

/-! ## The layout invariant -/

/-- No two neighbouring blocks are both free. -/
def Separated (cells : List Cell) : Prop :=
  cells.IsChain fun cell next => cell.used = true ∨ next.used = true

theorem separated_middle
    {front middle back : List Cell} (hmiddle : middle ≠ []) :
    Separated (front ++ middle ++ back) ↔
      Separated front ∧ Separated middle ∧ Separated back ∧
        (∀ x ∈ front.getLast?, ∀ y ∈ middle.head?,
          x.used = true ∨ y.used = true) ∧
        (∀ x ∈ middle.getLast?, ∀ y ∈ back.head?,
          x.used = true ∨ y.used = true) := by
  unfold Separated
  rw [List.isChain_append, List.isChain_append,
    List.getLast?_append_of_ne_nil _ hmiddle]
  tauto

/-- The heap stands at `kernelMalloc`, its memory represents `cells`, the
blocks fill whole thresholds of mapped pages, and free blocks are apart. -/
structure Inv (s : State) (cells : List Cell) : Prop where
  initialized : s.kmallocInitalized = true
  head : s.heapHead = kernelMalloc
  start : s.heapStart = kernelMalloc
  nonempty : cells ≠ []
  represents : Represents s.mem 0 0 kernelMalloc cells
  extent_eq : extent cells = s.heapSize
  thresholds : s.heapSize % heapThreshold = 0
  backed : s.heapSize / 4096 ≤ s.vm.frames.allocated.card
  separated : Separated cells

/-- The frame bitmap bounds the heap by 256 MiB. -/
theorem Inv.heapSize_le {s : State} {cells : List Cell} (h : Inv s cells) :
    s.heapSize ≤ 0x10000000 := by
  have hcard := s.vm.frames.card_allocated_le
  have hbacked := h.backed
  have hpages := h.thresholds
  simp only [numPageFrames, heapThreshold] at hcard hpages
  omega

theorem kernelMalloc_eq : kernelMalloc = 3489660928 := rfl

theorem Inv.limit {s : State} {cells : List Cell} (h : Inv s cells) :
    kernelMalloc + extent cells < 4294967296 := by
  have hsize := h.heapSize_le
  rw [h.extent_eq, kernelMalloc_eq]
  omega

theorem Inv.kmallocInit_eq {s : State} {cells : List Cell}
    (h : Inv s cells) : kmallocInit s = .ok s := by
  simp [kmallocInit, h.initialized]

/-! ## Taking a block -/

/-- What `kmalloc` leaves in the place of the free block it takes. -/
def takenCells (size : ℕ) (cell : Cell) : List Cell :=
  if headerSize + 8 ≤ cell.size - size then
    [⟨size, true⟩, ⟨cell.size - size - headerSize, false⟩]
  else [⟨cell.size, true⟩]

theorem extent_takenCells {size : ℕ} {cell : Cell}
    (hfit : size ≤ cell.size) :
    extent (takenCells size cell) = cell.span := by
  unfold takenCells
  split_ifs with hroom
  · simp only [extent_cons, extent_nil, Cell.span]
    omega
  · simp [Cell.span]

/-- `takenCells` starts with a used block of at least `size` bytes, and what
follows it is free. -/
theorem takenCells_shape {size : ℕ} {cell : Cell}
    (hfit : size ≤ cell.size) :
    ∃ room rest, takenCells size cell = ⟨room, true⟩ :: rest ∧
      size ≤ room ∧ (∀ other ∈ rest, other.used = false) ∧
      Separated (⟨room, true⟩ :: rest) := by
  unfold takenCells
  split_ifs with hroom
  · exact ⟨size, _, rfl, le_rfl, by simp, by simp [Separated]⟩
  · exact ⟨cell.size, [], rfl, hfit, by simp, by simp [Separated]⟩

theorem take_represents
    {mem : ByteStore} {prev start size : ℕ} {front back : List Cell}
    {cell : Cell} (throughRest : Bool)
    (h : Represents mem 0 prev start (front ++ [cell] ++ back))
    (hstart : 0 < start) (hfit : size ≤ cell.size)
    (hlimit : start + extent (front ++ [cell] ++ back) < 4294967296) :
    Represents
      (setUsed (start + extent front) true
        (splitBlock throughRest (start + extent front) size mem))
      0 prev start (front ++ takenCells size cell ++ back) := by
  have hsplit := splitBlock_represents throughRest h hstart hfit hlimit
  unfold splitCells at hsplit
  unfold takenCells
  split_ifs at hsplit ⊢ with hroom
  · have hfirst :
        Represents (splitBlock throughRest (start + extent front) size mem)
          0 prev start
          (front ++ [⟨size, cell.used⟩] ++
            (⟨cell.size - size - headerSize, false⟩ :: back)) := by
      simpa using hsplit
    simpa using setUsed_represents true hfirst
  · exact setUsed_represents true hsplit

/-- Taking a free block keeps free blocks apart: its neighbours are used. -/
theorem separated_taken
    {size : ℕ} {front back : List Cell} {cell : Cell}
    (h : Separated (front ++ [cell] ++ back)) (hfree : cell.used = false)
    (hfit : size ≤ cell.size) :
    Separated (front ++ takenCells size cell ++ back) := by
  obtain ⟨room, rest, htaken, -, hrest, hseparated⟩ :=
    takenCells_shape hfit
  rw [separated_middle (by simp)] at h
  rw [htaken, separated_middle (by simp)]
  obtain ⟨hfront, -, hback, -, hnext⟩ := h
  refine ⟨hfront, hseparated, hback, ?_, ?_⟩
  · intro x _ y hy
    simp only [List.head?_cons, Option.mem_some_iff] at hy
    exact .inr (by rw [← hy])
  · intro x _ y hy
    rcases hnext cell (by simp) y hy with hused | hused
    · rw [hfree] at hused
      cases hused
    · exact .inr hused

end ClOs.Heap
