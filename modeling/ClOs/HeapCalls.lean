import ClOs.HeapAllocation

/-!
# The heap calls

What `kmalloc_init`, `kmalloc` and `kfree` do to the layout of a heap that
satisfies the invariant.
-/

namespace ClOs.Heap

open Memory

theorem ceilDiv_threshold {needed : ℕ}
    (hneeded : needed + 65536 ≤ 4294967296) :
    ceilDiv needed heapThreshold = (needed + 65535) / 65536 := by
  have hthreshold : heapThreshold = 65536 := rfl
  unfold ceilDiv sub32 u32
  rw [hthreshold]
  omega

/-- The heap grows by whole thresholds, by enough for the payload, and by
less than two thresholds too much. -/
theorem expandSize_spec
    (mem : ByteStore) {size prev : ℕ}
    (hprev : prev ≠ 0) (hsize : size ≤ 0x40000000)
    (hunfit : usedOf mem prev = false → sizeOf mem prev < size) :
    expandSize mem size prev % 65536 = 0 ∧
      65536 ≤ expandSize mem size prev ∧
      expandSize mem size prev ≤ size + 131072 ∧
      size + headerSize ≤
        (if usedOf mem prev = false then sizeOf mem prev else 0) +
          expandSize mem size prev := by
  have hheaderSize : headerSize = 17 := rfl
  have hthreshold : heapThreshold = 65536 := rfl
  obtain ⟨needed, hneeded, hlow, hhigh, hsum⟩ :
      ∃ needed,
        (if prev ≠ 0 ∧ usedOf mem prev = false then
          if sizeOf mem prev < u32 (size + headerSize) then
            sub32 (u32 (size + headerSize)) (sizeOf mem prev)
          else 0
        else u32 (size + headerSize)) = needed ∧
        0 < needed ∧ needed ≤ size + headerSize ∧
        size + headerSize ≤
          (if usedOf mem prev = false then sizeOf mem prev else 0) +
            needed := by
    rw [u32_of_lt (show size + headerSize < 4294967296 by omega)]
    by_cases hfree : usedOf mem prev = false
    · have hlt := hunfit hfree
      refine ⟨size + headerSize - sizeOf mem prev, ?_, by omega, by omega, ?_⟩
      · rw [if_pos ⟨hprev, hfree⟩, if_pos (by omega),
          sub32_of_le (by omega) (by omega)]
      · rw [if_pos hfree]
        omega
    · refine ⟨size + headerSize, ?_, by omega, le_rfl, ?_⟩
      · rw [if_neg (by tauto)]
      · rw [if_neg hfree]
        omega
  have hexpand :
      expandSize mem size prev = (needed + 65535) / 65536 * 65536 := by
    unfold expandSize
    simp only [hneeded]
    rw [ceilDiv_threshold (by omega), hthreshold, u32_of_lt (by omega),
      if_neg (by omega)]
  rw [hexpand]
  omega

/-- A call has taken a free block of `size` bytes: the blocks `old` of the
layout became one used block and free remainder. -/
def Took (size : ℕ) (cells : List Cell) (ptr : ℕ) (next : State) : Prop :=
  ∃ front old back room rest,
    cells = front ++ old ++ back ∧
    (∀ other ∈ old, other.used = false) ∧
    (∀ other ∈ rest, other.used = false) ∧
    size ≤ room ∧
    ptr = kernelMalloc + extent front + headerSize ∧
    (back = [] ∨ extent (⟨room, true⟩ :: rest) = extent old) ∧
    Inv next (front ++ (⟨room, true⟩ :: rest) ++ back)

theorem takeFound_spec
    {s : State} {size : ℕ} {front back : List Cell} {cell : Cell}
    (h : Inv s (front ++ [cell] ++ back))
    (hfree : cell.used = false) (hfit : size ≤ cell.size) :
    Took size (front ++ [cell] ++ back)
      (u32 (kernelMalloc + extent front + headerSize))
      { s with
        mem := setUsed (kernelMalloc + extent front) true
          (splitBlock false (kernelMalloc + extent front) size s.mem) } := by
  have hlimit := h.limit
  obtain ⟨room, rest, htaken, hroom, hrest, -⟩ := takenCells_shape hfit
  have hextent := extent_takenCells hfit
  have hspan := headerSize_le_span cell
  have hstart : 0 < kernelMalloc := by norm_num [kernelMalloc]
  have hrepresents := take_represents false h.represents hstart hfit hlimit
  have hseparated := separated_taken h.separated hfree hfit
  have hsize := h.extent_eq
  rw [htaken] at hextent hrepresents hseparated
  refine ⟨front, [cell], back, room, rest, rfl, by simpa using hfree, hrest,
    hroom, ?_, .inr (by simpa using hextent), ?_⟩
  · refine u32_of_lt ?_
    simp only [extent_append, extent_cons, extent_nil] at hlimit
    omega
  · refine ⟨h.initialized, h.head, h.start, by simp, hrepresents, ?_,
      h.thresholds, h.backed, hseparated⟩
    rw [extent_append, extent_append, hextent]
    simpa [Nat.add_assoc] using hsize

theorem joinLast_free
    {mem : ByteStore} {block prev : ℕ}
    (hprev : prev ≠ 0) (hblock : block ≠ 0)
    (hfree : usedOf mem prev = false) (hnext : nextOf mem prev = block)
    (hblockFree : usedOf mem block = false) :
    joinLast block prev mem = (prev, mergeNext prev mem) := by
  have hkept (value : ℕ) :
      nextOf (setSize prev value mem) prev = block := by
    have hheader := headerAt_setSize mem prev value
    exact (congrArg Header.next hheader).trans hnext
  simp [joinLast, mergeNext, hprev, hfree, hnext, hblock, hblockFree, hkept]

/-- Appending the new block and joining it to a free last block leaves one
free block at the end that is large enough. -/
theorem joinLast_represents
    {mem : ByteStore} {start size : ℕ} {front : List Cell} {last : Cell}
    (h : Represents mem 0 0 start (front ++ [last, ⟨size, false⟩] ++ []))
    (hstart : 0 < start)
    (hlimit :
      start + extent (front ++ [last, ⟨size, false⟩] ++ []) < 4294967296) :
    ∃ (front' : List Cell) (cell : Cell),
      joinLast (start + extent front + last.span) (start + extent front) mem =
          (start + extent front',
            (joinLast (start + extent front + last.span)
              (start + extent front) mem).2) ∧
        Represents
          (joinLast (start + extent front + last.span)
            (start + extent front) mem).2
          0 0 start (front' ++ [cell] ++ []) ∧
        cell.used = false ∧
        cell.size =
          (if last.used = false then last.size + headerSize else 0) + size ∧
        (if last.used = false then front' = front
          else front' = front ++ [last]) := by
  obtain ⟨hheader, hnextHeader⟩ := h.headerPair
  have hused : usedOf mem (start + extent front) = last.used :=
    congrArg Header.used hheader
  by_cases hfree : last.used = false
  · have hjoin := joinLast_free (by omega)
      (show start + extent front + last.span ≠ 0 by omega)
      (hused.trans hfree)
      (congrArg Header.next hheader) (congrArg Header.used hnextHeader)
    have hmerged := mergeNext_free h hlimit rfl
    rw [hjoin]
    exact ⟨front, _, rfl, hmerged, hfree, by simp [hfree], by simp [hfree]⟩
  · have hjoin :
        joinLast (start + extent front + last.span)
            (start + extent front) mem =
          (start + extent front + last.span, mem) := by
      simp [joinLast, hused, hfree]
    rw [hjoin]
    refine ⟨front ++ [last], ⟨size, false⟩, ?_, by simpa using h, rfl,
      by simp [hfree], by simp [hfree]⟩
    simp [Nat.add_assoc]

/-- The memory after a new free block of `size` bytes has been put behind the
last block. -/
def appendBlock (block size prev : ℕ) (mem : ByteStore) : ByteStore :=
  setNext prev block (writeHeader block size false 0 prev mem)

/-- The block that a growing `kmalloc` cuts, and the memory before the cut: the
new block behind `prev`, joined to it when it is free. -/
def lastBlock (oldHeapSize prev : ℕ) (s : State) : ℕ × ByteStore :=
  let newBlock := u32 (s.heapStart + oldHeapSize)
  let mem := writeHeader newBlock
    (sub32 (sub32 s.heapSize oldHeapSize) headerSize) false 0 prev s.mem
  joinLast newBlock prev (if prev ≠ 0 then setNext prev newBlock mem else mem)

theorem growAndTake_lastBlock (size prev : ℕ) (s : State) :
    growAndTake size prev s = do
      let grown ← changeHeapSize
        (toInt (u32 (s.heapSize + expandSize s.mem size prev))) s
      touchPage (u32 (grown.heapStart + s.heapSize)) grown.vm
      touchSplit (lastBlock s.heapSize prev grown).1 size
        (lastBlock s.heapSize prev grown).2 grown
      return (u32 ((lastBlock s.heapSize prev grown).1 + headerSize), { grown with
        mem := setUsed (lastBlock s.heapSize prev grown).1 true
          (splitBlock true (lastBlock s.heapSize prev grown).1 size
            (lastBlock s.heapSize prev grown).2)
        heapHead := if prev ≠ 0 then grown.heapHead
          else u32 (grown.heapStart + s.heapSize) }) :=
  rfl

theorem touchBytes_ends (address count : ℕ) (s : State) :
    (touchBytes address count s).Ends := by
  unfold touchBytes
  split_ifs
  · exact Outcome.ends_ok _
  · exact (touchPage_ends _ _).bind fun _ _ => touchPage_ends _ _

theorem touchSplit_ends (block size : ℕ) (mem : ByteStore) (s : State) :
    (touchSplit block size mem s).Ends := by
  unfold touchSplit
  split_ifs with hroom
  · refine (touchBytes_ends _ _ _).bind fun _ _ => ?_
    dsimp only
    split_ifs
    · exact touchBytes_ends _ _ _
    · exact Outcome.ends_ok _
  · exact Outcome.ends_ok _

theorem touchSplit_last
    {mem : ByteStore} {s : State} {size : ℕ} {front : List Cell} {cell : Cell}
    (h : Represents mem 0 0 kernelMalloc (front ++ [cell] ++ []))
    (hfit : size ≤ cell.size) (hend : extent front + cell.span = s.heapSize)
    (hlimit : s.heapSize ≤ 0x10000000) :
    touchSplit (kernelMalloc + extent front) size mem s = .ok () := by
  have hkernel := kernelMalloc_eq
  have hheader : headerSize = 17 := rfl
  have hspan : cell.span = headerSize + cell.size := rfl
  have hroom : sizeOf mem (kernelMalloc + extent front) = cell.size :=
    congrArg Header.size h.header
  have hnext : nextOf mem (kernelMalloc + extent front) = 0 :=
    congrArg Header.next h.header
  unfold touchSplit
  rw [hroom, sub32_of_le (a := cell.size) (b := size) hfit (by omega)]
  split_ifs with hrest
  · have hlast : nextOf (restHeader (kernelMalloc + extent front) size mem)
        (kernelMalloc + extent front + headerSize + size) = 0 := by
      rw [restHeader_eq hroom (by omega) (by omega), hnext]
      exact (congrArg Header.next
        (headerAt_writeHeader mem _ _ _ _ _)).trans (u32_of_lt (by norm_num))
    have hinside : touchBytes (kernelMalloc + extent front + headerSize + size)
        headerSize s = .ok () := by
      unfold touchBytes
      exact if_pos ⟨by omega, by omega, by omega⟩
    rw [u32_of_lt (n := kernelMalloc + extent front + headerSize + size)
      (by omega)]
    simp only [hinside, hlast, bind, Except.bind, ne_eq, not_true_eq_false,
      if_false]
  · rfl

/-- Growing for a payload that the frames can back leaves one free block at the
end that is large enough. -/
theorem lastBlock_spec
    {s grown : State} {size : ℕ} {front : List Cell} {last : Cell}
    (h : Inv s (front ++ [last]))
    (hsize : size ≤ 0x40000000) (hunfit : Unfit size last)
    (hresize : changeHeapSize (toInt (u32 (s.heapSize +
      expandSize s.mem size (kernelMalloc + extent front)))) s = .ok grown) :
    ∃ (growth : ℕ) (vm : Vm) (front' : List Cell) (cell : Cell)
      (joined : ByteStore),
      expandSize s.mem size (kernelMalloc + extent front) = growth ∧
      grown = { s with vm := vm, heapSize := s.heapSize + growth } ∧
      lastBlock s.heapSize (kernelMalloc + extent front) grown =
        (kernelMalloc + extent front', joined) ∧
      s.heapSize + growth ≤ 0x10000000 ∧
      (s.heapSize + growth) % heapThreshold = 0 ∧
      (s.heapSize + growth) / 4096 ≤ vm.frames.allocated.card ∧
      (joinLast (kernelMalloc + extent front + last.span)
        (kernelMalloc + extent front)
        (appendBlock (kernelMalloc + extent front + last.span)
          (growth - headerSize) (kernelMalloc + extent front) s.mem) =
        (kernelMalloc + extent front', joined)) ∧
      Represents
        (appendBlock (kernelMalloc + extent front + last.span)
          (growth - headerSize) (kernelMalloc + extent front) s.mem)
        0 0 kernelMalloc
        (front ++ [last, ⟨growth - headerSize, false⟩] ++ []) ∧
      kernelMalloc + extent (front ++ [last, ⟨growth - headerSize, false⟩] ++ [])
        < 4294967296 ∧
      Represents joined 0 0 kernelMalloc (front' ++ [cell] ++ []) ∧
      cell.used = false ∧ size ≤ cell.size ∧
      extent front' + cell.span = s.heapSize + growth ∧
      (if last.used = false then front' = front
        else front' = front ++ [last]) := by
  have hlimit := h.limit
  have hbound := h.heapSize_le
  have hthresholds := h.thresholds
  have hsizeEq := h.extent_eq
  have hspan : last.span = headerSize + last.size := rfl
  have hheaderSize : headerSize = 17 := rfl
  have hthreshold : heapThreshold = 65536 := rfl
  rw [hthreshold] at hthresholds
  have hkernel := kernelMalloc_eq
  have hrepresents :
      Represents s.mem 0 0 kernelMalloc (front ++ [last] ++ []) := by
    simpa using h.represents
  have hused : usedOf s.mem (kernelMalloc + extent front) = last.used :=
    congrArg Header.used hrepresents.header
  have hlastSize : sizeOf s.mem (kernelMalloc + extent front) = last.size :=
    congrArg Header.size hrepresents.header
  obtain ⟨hmultiple, hpositive, hmost, henough⟩ :=
    expandSize_spec s.mem
      (show kernelMalloc + extent front ≠ 0 by omega) hsize (by
        intro hfree
        rw [hlastSize]
        rw [hused] at hfree
        rcases hunfit with hlastUsed | hlt
        · rw [hfree] at hlastUsed
          cases hlastUsed
        · exact hlt)
  rw [hused, hlastSize] at henough
  generalize expandSize s.mem size (kernelMalloc + extent front) = growth
    at hresize hmultiple hpositive hmost henough ⊢
  rw [u32_of_lt (by omega), toInt_of_lt (by omega)] at hresize
  obtain ⟨vm, rfl, hcard⟩ :=
    changeHeapSize_spec (by omega) (by omega) (by omega) (by omega) hresize
  have hcardLimit := vm.frames.card_allocated_le
  simp only [numPageFrames] at hcardLimit
  have hbacked := h.backed
  have hnewLimit : s.heapSize + growth ≤ 0x10000000 := by omega
  simp only [extent_append, extent_cons, extent_nil] at hsizeEq
  have hstands :
      u32 (s.heapStart + s.heapSize) =
        kernelMalloc + extent front + last.span := by
    rw [h.start, u32_of_lt (by omega)]
    omega
  have hfresh :
      sub32 (sub32 (s.heapSize + growth) s.heapSize) headerSize =
        growth - headerSize := by
    rw [sub32_of_le (a := s.heapSize + growth) (by omega) (by omega),
      sub32_of_le (by omega) (by omega)]
    omega
  have happended := append_represents (growth - headerSize)
    hrepresents (by
      simp only [extent_append, extent_cons, extent_nil]
      omega)
  have happendedLimit : kernelMalloc +
      extent (front ++ [last, ⟨growth - headerSize, false⟩] ++ []) <
        4294967296 := by
    simp only [extent_append, extent_cons, extent_nil, Cell.span]
    omega
  obtain ⟨front', cell, hjoin, hjoined, hcellFree, hcellSize, hfront'⟩ :=
    joinLast_represents happended (by omega) happendedLimit
  have hcut : lastBlock s.heapSize (kernelMalloc + extent front)
      { s with vm := vm, heapSize := s.heapSize + growth } =
        (kernelMalloc + extent front',
          (joinLast (kernelMalloc + extent front + last.span)
            (kernelMalloc + extent front)
            (appendBlock (kernelMalloc + extent front + last.span)
              (growth - headerSize) (kernelMalloc + extent front) s.mem)).2) := by
    unfold lastBlock
    dsimp only
    rw [hstands, hfresh, if_pos (by omega)]
    exact hjoin
  have hfit : size ≤ cell.size := by
    split_ifs at hcellSize henough <;> omega
  have hextents :
      extent front' + cell.span = s.heapSize + growth := by
    have hcellSpan : cell.span = headerSize + cell.size := rfl
    split_ifs at hcellSize hfront' with hlast
    · rw [hfront']
      omega
    · rw [hfront']
      simp only [extent_append, extent_cons, extent_nil]
      omega
  have hmapped : (s.heapSize + growth) / 4096 ≤ vm.frames.allocated.card := by
    omega
  refine ⟨growth, vm, front', cell, _, rfl, rfl, hcut, hnewLimit, ?_, hmapped,
    hjoin, happended, happendedLimit, hjoined, hcellFree, hfit, hextents,
    hfront'⟩
  rw [hthreshold]
  omega

/-- How a growing `kmalloc` ends, in terms of the layout. -/
theorem growAndTake_eq
    {s next : State} {size ptr : ℕ} {front : List Cell} {last : Cell}
    (h : Inv s (front ++ [last]))
    (hsize : size ≤ 0x40000000) (hunfit : Unfit size last)
    (hgrow : growAndTake size (kernelMalloc + extent front) s =
      .ok (ptr, next)) :
    ∃ (grown : ℕ) (vm : Vm) (front' : List Cell) (cell : Cell)
      (joined : ByteStore),
      s.heapSize + grown ≤ 0x10000000 ∧
      (s.heapSize + grown) % heapThreshold = 0 ∧
      (s.heapSize + grown) / 4096 ≤ vm.frames.allocated.card ∧
      (joinLast (kernelMalloc + extent front + last.span)
        (kernelMalloc + extent front)
        (appendBlock (kernelMalloc + extent front + last.span)
          (grown - headerSize) (kernelMalloc + extent front) s.mem) =
        (kernelMalloc + extent front', joined)) ∧
      Represents
        (appendBlock (kernelMalloc + extent front + last.span)
          (grown - headerSize) (kernelMalloc + extent front) s.mem)
        0 0 kernelMalloc
        (front ++ [last, ⟨grown - headerSize, false⟩] ++ []) ∧
      kernelMalloc + extent (front ++ [last, ⟨grown - headerSize, false⟩] ++ [])
        < 4294967296 ∧
      Represents joined 0 0 kernelMalloc (front' ++ [cell] ++ []) ∧
      cell.used = false ∧ size ≤ cell.size ∧
      extent front' + cell.span = s.heapSize + grown ∧
      (if last.used = false then front' = front
        else front' = front ++ [last]) ∧
      ptr = u32 (kernelMalloc + extent front' + headerSize) ∧
      next = { s with
        vm := vm
        heapSize := s.heapSize + grown
        mem := setUsed (kernelMalloc + extent front') true
          (splitBlock true (kernelMalloc + extent front') size joined) } := by
  rw [growAndTake_lastBlock] at hgrow
  obtain ⟨resized, hresize, hgrow⟩ := Outcome.bind_eq_ok.mp hgrow
  obtain ⟨-, -, hgrow⟩ := Outcome.bind_eq_ok.mp hgrow
  obtain ⟨-, -, hgrow⟩ := Outcome.bind_eq_ok.mp hgrow
  obtain ⟨growth, vm, front', cell, joined, -, rfl, hcut, hnewLimit,
    hthresholds, hmapped, hjoin, happended, happendedLimit, hjoined, hcellFree,
    hfit, hextents, hfront'⟩ := lastBlock_spec h hsize hunfit hresize
  have hkernel := kernelMalloc_eq
  rw [hcut, if_pos (show kernelMalloc + extent front ≠ 0 by omega)] at hgrow
  cases hgrow
  exact ⟨growth, vm, front', cell, joined, hnewLimit, hthresholds, hmapped,
    hjoin, happended, happendedLimit, hjoined, hcellFree, hfit, hextents,
    hfront', rfl, rfl⟩

/-- No block fitted: the heap grows at its end. -/
theorem growAndTake_spec
    {s next : State} {size ptr : ℕ} {front : List Cell} {last : Cell}
    (h : Inv s (front ++ [last]))
    (hsize : size ≤ 0x40000000) (hunfit : Unfit size last)
    (hgrow : growAndTake size (kernelMalloc + extent front) s =
      .ok (ptr, next)) :
    Took size (front ++ [last]) ptr next := by
  obtain ⟨grown, vm, front', cell, joined, hnewLimit, hthresholds, hbacked,
    -, -, -, hjoined, hcellFree, hfit, hextents, hfront', rfl, rfl⟩ :=
    growAndTake_eq h hsize hunfit hgrow
  have hkernel := kernelMalloc_eq
  have hnewSeparated : Separated (front' ++ [cell] ++ []) := by
    have hseparated := h.separated
    split_ifs at hfront' with hlast
    · have hold : Separated (front ++ [last] ++ []) := by
        simpa using hseparated
      rw [separated_middle (by simp)] at hold ⊢
      rw [hfront']
      refine ⟨hold.1, by simp [Separated], by simp [Separated], ?_,
        by simp⟩
      intro x hx y hy
      rcases hold.2.2.2.1 x hx last (by simp) with hx' | hlast'
      · exact .inl hx'
      · rw [hlast] at hlast'
        cases hlast'
    · rw [separated_middle (by simp), hfront']
      refine ⟨hseparated, by simp [Separated], by simp [Separated], ?_,
        by simp⟩
      intro x hx y hy
      simp only [List.getLast?_append, List.getLast?_singleton,
        Option.some_or, Option.mem_some_iff] at hx
      rw [← hx]
      exact .inl (by simpa using hlast)
  obtain ⟨room, rest, htaken, hroom, hrest, -⟩ := takenCells_shape hfit
  have hextent := extent_takenCells hfit
  have htakenRepresents := take_represents true hjoined (by omega) hfit (by
    simp only [extent_append, extent_cons, extent_nil]
    omega)
  have htakenSeparated := separated_taken hnewSeparated hcellFree hfit
  rw [htaken] at hextent htakenRepresents htakenSeparated
  refine ⟨front', if last.used = false then [last] else [], [], room, rest,
    ?_, ?_, hrest, hroom, ?_, .inl rfl, ?_⟩
  · split_ifs at hfront' with hlast <;> simp [hfront', hlast]
  · split_ifs with hlast
    · simpa using hlast
    · simp
  · refine u32_of_lt ?_
    have hcellSpan := headerSize_le_span cell
    omega
  · refine ⟨h.initialized, h.head, h.start, by simp, htakenRepresents, ?_,
      hthresholds, hbacked, htakenSeparated⟩
    rw [extent_append, extent_append, hextent]
    simpa using hextents

/-- `kmalloc` of a positive size takes the first free block that holds the
rounded size, or grows the heap. -/
theorem kmalloc_eq
    {s : State} {cells : List Cell} {size : ℕ}
    (h : Inv s cells) (hpositive : 0 < size) :
    (∃ (front : List Cell) (cell : Cell) (back : List Cell),
        cells = front ++ [cell] ++ back ∧ cell.used = false ∧
        u32 (size + 7) / 8 * 8 ≤ cell.size ∧
        search s.mem (u32 (size + 7) / 8 * 8) (s.heapSize + 1) s.heapHead 0 =
          .ok (.found (kernelMalloc + extent front)) ∧
        kmalloc size s = .ok (u32 (kernelMalloc + extent front + headerSize),
          { s with
            mem := setUsed (kernelMalloc + extent front) true
              (splitBlock false (kernelMalloc + extent front)
                (u32 (size + 7) / 8 * 8) s.mem) })) ∨
      ∃ front last, cells = front ++ [last] ∧
        (∀ cell ∈ cells, Unfit (u32 (size + 7) / 8 * 8) cell) ∧
        search s.mem (u32 (size + 7) / 8 * 8) (s.heapSize + 1) s.heapHead 0 =
          .ok (.missed (kernelMalloc + extent front)) ∧
        kmalloc size s = growAndTake (u32 (size + 7) / 8 * 8)
          (kernelMalloc + extent front) s := by
  have hlength := length_le_extent cells
  have hhead : s.heapHead = linkTo kernelMalloc cells 0 := by
    rw [h.head]
    cases cells with
    | nil => exact absurd rfl h.nonempty
    | cons cell cells => rfl
  have hfuel : cells.length < s.heapSize + 1 := by
    rw [← h.extent_eq]
    omega
  unfold kmalloc
  rw [h.kmallocInit_eq]
  simp only [bind, Except.bind, if_neg (show size ≠ 0 by omega)]
  generalize u32 (size + 7) / 8 * 8 = rounded
  have hsearch := search_spec rounded h.represents
    (by norm_num [kernelMalloc]) hfuel
  rw [← hhead] at hsearch
  rcases hsearch with
    ⟨front, cell, back, rfl, -, hfree, hfit, hfound⟩ | ⟨hunfit, hmissed⟩
  · rw [hfound]
    exact .inl ⟨front, cell, back, rfl, hfree, hfit, rfl, rfl⟩
  · obtain ⟨front, last, rfl⟩ : ∃ front last, cells = front ++ [last] :=
      ⟨_, _, (List.dropLast_append_getLast h.nonempty).symm⟩
    rw [lastAddress_concat] at hmissed
    rw [hmissed]
    exact .inr ⟨front, last, rfl, hunfit, rfl, rfl⟩

/-- How a `kmalloc` of a positive size below `2^30` returns. -/
theorem kmalloc_cases
    {s next : State} {cells : List Cell} {size ptr : ℕ}
    (h : Inv s cells) (hpositive : 0 < size) (hsize : size < 0x40000000)
    (hcall : kmalloc size s = .ok (ptr, next)) :
    ∃ rounded, size ≤ rounded ∧ rounded ≤ 0x40000000 ∧
      ((∃ (front : List Cell) (cell : Cell) (back : List Cell),
          cells = front ++ [cell] ++ back ∧ cell.used = false ∧
          rounded ≤ cell.size ∧
          ptr = u32 (kernelMalloc + extent front + headerSize) ∧
          next = { s with
            mem := setUsed (kernelMalloc + extent front) true
              (splitBlock false (kernelMalloc + extent front) rounded
                s.mem) }) ∨
        ∃ front last, cells = front ++ [last] ∧ Unfit rounded last ∧
          growAndTake rounded (kernelMalloc + extent front) s =
            .ok (ptr, next)) := by
  have hround : size ≤ u32 (size + 7) / 8 * 8 ∧
      u32 (size + 7) / 8 * 8 ≤ 0x40000000 := by
    rw [u32_of_lt (by omega)]
    omega
  refine ⟨u32 (size + 7) / 8 * 8, hround.1, hround.2, ?_⟩
  rcases kmalloc_eq h hpositive with
    ⟨front, cell, back, hcells, hfree, hfit, -, htaken⟩ |
      ⟨front, last, hcells, hunfit, -, hgrow⟩
  · rw [htaken] at hcall
    cases hcall
    exact .inl ⟨front, cell, back, hcells, hfree, hfit, rfl, rfl⟩
  · rw [hgrow] at hcall
    exact .inr ⟨front, last, hcells, hunfit last (by simp [hcells]), hcall⟩

theorem kmalloc_spec
    {s next : State} {cells : List Cell} {size ptr : ℕ}
    (h : Inv s cells) (hpositive : 0 < size) (hsize : size < 0x40000000)
    (hcall : kmalloc size s = .ok (ptr, next)) :
    Took size cells ptr next := by
  obtain ⟨rounded, hlow, hhigh, hcases⟩ :=
    kmalloc_cases h hpositive hsize hcall
  have hwiden (htook : Took rounded cells ptr next) :
      Took size cells ptr next := by
    obtain ⟨front, old, back, room, rest, hcells, hold, hrest, hroom, htail⟩ :=
      htook
    exact ⟨front, old, back, room, rest, hcells, hold, hrest,
      hlow.trans hroom, htail⟩
  apply hwiden
  rcases hcases with
    ⟨front, cell, back, rfl, hfree, hfit, rfl, rfl⟩ |
      ⟨front, last, rfl, hunfit, hgrow⟩
  · exact takeFound_spec h hfree hfit
  · exact growAndTake_spec h hhigh hunfit hgrow

/-- On a good heap `kmalloc` never loops for ever. -/
theorem kmalloc_ends
    {s : State} {cells : List Cell} (h : Inv s cells) (size : ℕ) :
    (kmalloc size s).Ends := by
  rcases Nat.eq_zero_or_pos size with rfl | hpositive
  · unfold kmalloc
    rw [h.kmallocInit_eq]
    exact Outcome.ends_ok _
  · rcases kmalloc_eq h hpositive with
      ⟨front, cell, back, -, -, -, -, hcall⟩ | ⟨front, last, -, -, -, hcall⟩
    · rw [hcall]
      exact Outcome.ends_ok _
    · rw [hcall]
      exact (changeHeapSize_ends _ _).bind fun _ _ =>
        (touchPage_ends _ _).bind fun _ _ =>
          (touchSplit_ends _ _ _ _).bind fun _ _ => Outcome.ends_ok _

/-! ## `kfree` -/

/-- Forward coalescing absorbs the free block behind, if there is one; what
then follows is used. -/
theorem mergeNext_spec
    {mem : ByteStore} {start : ℕ} {front back : List Cell} {cell : Cell}
    (h : Represents mem 0 0 start (front ++ [cell] ++ back))
    (hlimit : start + extent (front ++ [cell] ++ back) < 4294967296)
    (hseparated : Separated back) :
    ∃ after tail, back = after ++ tail ∧
      (∀ other ∈ after, other.used = false) ∧
      (∀ other ∈ tail.head?, other.used = true) ∧
      Represents (mergeNext (start + extent front) mem) 0 0 start
        (front ++ [⟨cell.size + extent after, cell.used⟩] ++ tail) := by
  cases back with
  | nil =>
      rw [mergeNext_last h]
      exact ⟨[], [], rfl, by simp, by simp, by simpa using h⟩
  | cons next tail =>
      have hpair :
          Represents mem 0 0 start (front ++ [cell, next] ++ tail) := by
        simpa using h
      by_cases hused : next.used = true
      · rw [mergeNext_used hpair hused]
        exact ⟨[], next :: tail, rfl, by simp, by simpa using hused,
          by simpa using h⟩
      · have hfree : next.used = false := by simpa using hused
        have hmerged := mergeNext_free hpair (by simpa using hlimit) hfree
        refine ⟨[next], tail, rfl, by simpa using hfree, ?_, ?_⟩
        · intro other hother
          cases tail with
          | nil => cases hother
          | cons second rest =>
              have hpairUsed := (List.isChain_cons_cons.mp hseparated).1
              simp only [List.head?_cons, Option.mem_some_iff] at hother
              rw [← hother]
              exact hpairUsed.resolve_left hused
        · simpa [Cell.span, Nat.add_assoc] using hmerged

/-- Backward coalescing gives a free block to the free block before it; what
then precedes it is used. -/
theorem mergePrev_spec
    {mem : ByteStore} {start : ℕ} {front back : List Cell} {cell : Cell}
    (h : Represents mem 0 0 start (front ++ [cell] ++ back))
    (hstart : 0 < start)
    (hlimit : start + extent (front ++ [cell] ++ back) < 4294967296)
    (hfree : cell.used = false) (hseparated : Separated front) :
    ∃ lead before, front = lead ++ before ∧
      (∀ other ∈ before, other.used = false) ∧
      (∀ other ∈ lead.getLast?, other.used = true) ∧
      Represents (mergePrev (start + extent front) mem) 0 0 start
        (lead ++ [⟨extent before + cell.size, false⟩] ++ back) := by
  have hcell : cell = ⟨cell.size, false⟩ := by
    rw [← hfree]
  rcases List.eq_nil_or_concat front with rfl | ⟨lead, before, hfront⟩
  · rw [extent_nil, Nat.add_zero, mergePrev_first h]
    refine ⟨[], [], rfl, by simp, by simp, ?_⟩
    rw [hcell] at h
    simpa using h
  · rw [List.concat_eq_append] at hfront
    subst hfront
    have hpair :
        Represents mem 0 0 start (lead ++ [before, cell] ++ back) := by
      simpa using h
    have hstands :
        start + extent (lead ++ [before]) =
          start + extent lead + before.span := by
      simp [Nat.add_assoc]
    rw [hstands]
    by_cases hused : before.used = true
    · rw [mergePrev_used hpair hused]
      refine ⟨lead ++ [before], [], by simp, by simp, ?_, ?_⟩
      · intro other hother
        simp only [List.getLast?_append, List.getLast?_singleton,
          Option.some_or, Option.mem_some_iff] at hother
        rwa [← hother]
      · rw [hcell] at h
        simpa using h
    · have hbeforeFree : before.used = false := by simpa using hused
      have hmerged := mergePrev_free hpair hstart (by simpa using hlimit)
        hbeforeFree
      refine ⟨lead, [before], rfl, by simpa using hbeforeFree, ?_, ?_⟩
      · intro other hother
        have hchain := (List.isChain_append.mp hseparated).2.2 other hother
          before (by simp)
        exact hchain.resolve_right hused
      · rw [hbeforeFree] at hmerged
        simpa [Cell.span, Nat.add_comm, Nat.add_left_comm, Nat.add_assoc]
          using hmerged

/-- `kfree` of a used block passes its tests and edits the memory. -/
theorem kfree_eq
    {s : State} {front back : List Cell} {cell : Cell}
    (h : Inv s (front ++ [cell] ++ back))
    (hused : cell.used = true) (hpositive : 0 < cell.size) :
    kfree (kernelMalloc + extent front + headerSize) s = .ok { s with
      mem := mergePrev (kernelMalloc + extent front)
        (mergeNext (kernelMalloc + extent front)
          (setUsed (kernelMalloc + extent front) false s.mem)) } := by
  have hlimit := h.limit
  have hsize := h.extent_eq
  have hspan : cell.span = headerSize + cell.size := rfl
  have hheaderSize : headerSize = 17 := rfl
  have hkernel := kernelMalloc_eq
  simp only [extent_append, extent_cons, extent_nil] at hsize hlimit
  have hblock :
      sub32 (kernelMalloc + extent front + headerSize) headerSize =
        kernelMalloc + extent front := by
    rw [sub32_of_le (by omega) (by omega)]
    omega
  have hmagic : magicOf s.mem (kernelMalloc + extent front) = heapMagic :=
    congrArg Header.magic h.represents.header
  have hflag : usedOf s.mem (kernelMalloc + extent front) = true :=
    (congrArg Header.used h.represents.header).trans hused
  have hinside :
      ¬(kernelMalloc + extent front + headerSize < kernelMalloc ∨
        u32 (kernelMalloc + s.heapSize) ≤
          kernelMalloc + extent front + headerSize) := by
    rw [u32_of_lt (by omega)]
    omega
  unfold kfree
  rw [h.kmallocInit_eq]
  simp only [bind, Except.bind]
  rw [if_neg (by omega), if_neg hinside, hblock,
    if_neg (by simpa using hmagic), if_neg (by simp [hflag])]
  rfl

/-- `kfree` of a used block: it becomes one free block together with its free
neighbours. -/
theorem kfree_spec
    {s : State} {front back : List Cell} {cell : Cell}
    (h : Inv s (front ++ [cell] ++ back))
    (hused : cell.used = true) (hpositive : 0 < cell.size) :
    ∃ (next : State) (lead before after tail : List Cell) (merged : Cell),
      kfree (kernelMalloc + extent front + headerSize) s = .ok next ∧
      front = lead ++ before ∧ back = after ++ tail ∧
      (∀ other ∈ before, other.used = false) ∧
      (∀ other ∈ after, other.used = false) ∧
      merged.used = false ∧
      merged.span = extent (before ++ [cell] ++ after) ∧
      Inv next (lead ++ [merged] ++ tail) := by
  have hlimit := h.limit
  have hsize := h.extent_eq
  have hspan : cell.span = headerSize + cell.size := rfl
  have hheaderSize : headerSize = 17 := rfl
  have hkernel := kernelMalloc_eq
  have hseparated := (separated_middle (by simp)).mp h.separated
  simp only [extent_append, extent_cons, extent_nil] at hsize hlimit
  have hmarked := setUsed_represents false h.represents
  obtain ⟨after, tail, hback, hafter, htail, hforward⟩ :=
    mergeNext_spec hmarked (by
      simp only [extent_append, extent_cons, extent_nil, Cell.span] at *
      omega) hseparated.2.2.1
  have hbackExtent : extent back = extent after + extent tail := by
    rw [hback, extent_append]
  obtain ⟨lead, before, hfront, hbefore, hlead, hbackward⟩ :=
    mergePrev_spec hforward (by omega) (by
      simp only [extent_append, extent_cons, extent_nil, Cell.span] at *
      omega) rfl hseparated.1
  have hfrontExtent : extent front = extent lead + extent before := by
    rw [hfront, extent_append]
  generalize hmem : mergePrev (kernelMalloc + extent front)
    (mergeNext (kernelMalloc + extent front)
      (setUsed (kernelMalloc + extent front) false s.mem)) = mem
    at hbackward
  refine ⟨{ s with mem := mem }, lead, before, after, tail,
    ⟨extent before + (cell.size + extent after), false⟩, ?_, hfront, hback,
    hbefore, hafter, rfl, ?_, ?_⟩
  · rw [kfree_eq h hused hpositive, hmem]
  · simp only [extent_append, extent_cons, extent_nil, Cell.span]
    omega
  · refine ⟨h.initialized, h.head, h.start, by simp, hbackward, ?_,
      h.thresholds, h.backed, ?_⟩
    · simp only [extent_append, extent_cons, extent_nil, Cell.span] at *
      omega
    · rw [separated_middle (by simp)]
      have hfrontSeparated := hseparated.1
      have hbackSeparated := hseparated.2.2.1
      rw [hfront] at hfrontSeparated
      rw [hback] at hbackSeparated
      refine ⟨hfrontSeparated.left_of_append, by simp [Separated],
        hbackSeparated.right_of_append, ?_, ?_⟩
      · intro x hx y _
        exact .inl (hlead x hx)
      · intro x _ y hy
        exact .inr (htail y hy)

/-! ## `kmalloc_init` -/

/-- The first call sets up one free block of one threshold. -/
theorem kmallocInit_spec
    {s next : State} (hfresh : s.kmallocInitalized = false)
    (hinit : kmallocInit s = .ok next) :
    Inv next [⟨heapThreshold - headerSize, false⟩] := by
  unfold kmallocInit at hinit
  rw [hfresh] at hinit
  simp only [Bool.false_eq_true, if_false] at hinit
  obtain ⟨grown, hgrow, hnext⟩ := Outcome.bind_eq_ok.mp hinit
  have hthreshold : heapThreshold = 65536 := rfl
  obtain ⟨vm, rfl, hcard⟩ :=
    changeHeapSize_spec (t := heapThreshold) (by simp)
      (by omega) (by simp) (by omega) hgrow
  cases hnext
  have hsize :
      sub32 heapThreshold headerSize = heapThreshold - headerSize :=
    sub32_of_le (by norm_num [heapThreshold, headerSize])
      (by norm_num [heapThreshold])
  refine ⟨rfl, rfl, rfl, by simp, ?_, ?_, ?_, ?_, by simp [Separated]⟩
  · refine ⟨?_, trivial⟩
    dsimp only
    rw [hsize, headerAt_writeHeader,
      u32_of_lt (by norm_num [heapThreshold, headerSize]),
      u32_of_lt (by norm_num)]
    rfl
  · norm_num [Cell.span, heapThreshold, headerSize]
  · simp [heapThreshold]
  · dsimp only at hcard ⊢
    omega

end ClOs.Heap
