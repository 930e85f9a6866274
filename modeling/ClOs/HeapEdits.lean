import ClOs.HeapLayout

/-!
# Edits of a heap layout

Splitting a block, marking it, joining it to a neighbour and appending a new
last block: each memory edit of `heap.c` is matched with the edit it makes to
the represented layout.
-/

namespace ClOs.Heap

theorem headerAt_of_changesOnly
    {mem edited : ByteStore} {low high block : ℕ}
    (h : ChangesOnly mem edited low high)
    (hdisjoint : block + headerSize ≤ low ∨ high ≤ block) :
    headerAt edited block = headerAt mem block :=
  headerAt_congr (h.agreeOn hdisjoint)

theorem Header.eq_with_prev {header : Header} {prev : ℕ}
    (h : header.prev = prev) : header = { header with prev := prev } := by
  subst h
  rfl

/-- The header behind a changed piece of the layout, if there is one, is made
to point back to `target`. -/
def pointBack (back : List Cell) (block target : ℕ)
    (mem : ByteStore) : ByteStore :=
  if back.isEmpty then mem else setPrev block target mem

theorem pointBack_changesOnly
    (back : List Cell) (block target : ℕ) (mem : ByteStore) :
    ChangesOnly mem (pointBack back block target mem)
      block (block + headerSize) := by
  unfold pointBack
  split_ifs
  · intro k _
    rfl
  · exact setPrev_changesOnly mem block target

theorem headerAt_pointBack
    {cell : Cell} {cells : List Cell} (block target : ℕ)
    (mem : ByteStore) :
    headerAt (pointBack (cell :: cells) block target mem) block =
      { headerAt mem block with prev := u32 target } := by
  simp [pointBack]

theorem setPrev_eq_pointBack
    {mem : ByteStore} {next block target : ℕ} {back : List Cell}
    (hnext : next = linkTo block back 0)
    (hblock : block ≠ 0) :
    (if next ≠ 0 then setPrev next target mem else mem) =
      pointBack back block target mem := by
  cases back with
  | nil =>
      simp only [linkTo_nil] at hnext
      simp [pointBack, hnext]
  | cons cell cells =>
      simp only [linkTo_cons] at hnext
      simp [pointBack, hnext, hblock]

theorem relink_eq_pointBack
    {mem : ByteStore} {via block target : ℕ} {back : List Cell}
    (hnext : nextOf mem via = linkTo block back 0)
    (hblock : block ≠ 0) :
    relink via target mem = pointBack back block target mem :=
  setPrev_eq_pointBack hnext hblock

theorem linkTo_le (block : ℕ) (back : List Cell) :
    linkTo block back 0 ≤ block := by
  unfold linkTo
  split_ifs <;> omega

/-- The header of a block in the middle of a layout. -/
theorem Represents.header
    {mem : ByteStore} {prev start : ℕ} {front back : List Cell}
    {cell : Cell}
    (h : Represents mem 0 prev start (front ++ [cell] ++ back)) :
    headerAt mem (start + extent front) =
      ⟨heapMagic, cell.size, cell.used,
        linkTo (start + extent front + cell.span) back 0,
        lastAddress prev start front⟩ := by
  rw [List.append_assoc, represents_append] at h
  exact h.2.1

/-! ## Splitting a block -/

/-- The blocks that `splitBlock` leaves in the place of `cell`. -/
def splitCells (size : ℕ) (cell : Cell) : List Cell :=
  if headerSize + 8 ≤ cell.size - size then
    [⟨size, cell.used⟩, ⟨cell.size - size - headerSize, false⟩]
  else [cell]

/-- Without an overlap, the header that is cut off is a fresh one. -/
theorem restHeader_eq
    {mem : ByteStore} {block size room : ℕ} (hroom : sizeOf mem block = room)
    (hfit : size + headerSize ≤ room)
    (hlimit : block + headerSize + room < 4294967296) :
    restHeader block size mem =
      writeHeader (block + headerSize + size) (room - size - headerSize) false
        (nextOf mem block) block mem := by
  have hheader : headerSize = 17 := rfl
  unfold restHeader writeHeader
  rw [hroom, u32_of_lt (by omega),
    sub32_of_le (a := room) (b := size) (by omega) (by omega),
    sub32_of_le (a := room - size) (by omega) (by omega)]
  set rest := block + headerSize + size with hrest
  set fields := setUsed rest false (setSize rest (room - size - headerSize)
    (setMagic rest heapMagic mem)) with hfields
  have hkeep : headerAt fields block = headerAt mem block := by
    rw [hfields, headerAt_of_changesOnly (setUsed_changesOnly _ _ _)
        (.inl (by omega)),
      headerAt_of_changesOnly (setSize_changesOnly _ _ _) (.inl (by omega)),
      headerAt_of_changesOnly (setMagic_changesOnly _ _ _) (.inl (by omega))]
  have hnext : nextOf fields block = nextOf mem block :=
    congrArg Header.next hkeep
  dsimp only
  rw [← hfields, hnext]

/-- Splitting writes the remainder's header, the back link behind it and two
fields of the block itself. -/
theorem splitBlock_eq
    {mem : ByteStore} {prev start size : ℕ} {front back : List Cell}
    {cell : Cell} (throughRest : Bool)
    (h : Represents mem 0 prev start (front ++ [cell] ++ back))
    (hstart : 0 < start) (hfit : size ≤ cell.size)
    (hlimit : start + extent (front ++ [cell] ++ back) < 4294967296) :
    splitBlock throughRest (start + extent front) size mem =
      if headerSize + 8 ≤ cell.size - size then
        setNext (start + extent front) (start + extent front + headerSize + size)
          (setSize (start + extent front) size
            (pointBack back (start + extent front + cell.span)
              (start + extent front + headerSize + size)
              (writeHeader (start + extent front + headerSize + size)
                (cell.size - size - headerSize) false
                (linkTo (start + extent front + cell.span) back 0)
                (start + extent front) mem)))
      else mem := by
  set block := start + extent front with hblock
  set after := block + cell.span with hafter
  have hspan : cell.span = headerSize + cell.size := rfl
  have hheader :
      headerAt mem block =
        ⟨heapMagic, cell.size, cell.used, linkTo after back 0,
          lastAddress prev start front⟩ := h.header
  have hbound : after + extent back < 4294967296 := by
    simp only [extent_append, extent_cons, extent_nil] at hlimit
    omega
  have hsize : sizeOf mem block = cell.size := congrArg Header.size hheader
  have hnext : nextOf mem block = linkTo after back 0 :=
    congrArg Header.next hheader
  have hremaining : sub32 cell.size size = cell.size - size :=
    sub32_of_le hfit (by omega)
  unfold splitBlock
  rw [hsize, hremaining]
  by_cases hroom : headerSize + 8 ≤ cell.size - size
  swap
  · simp [hroom]
  simp only [if_pos hroom]
  rw [restHeader_eq hsize (by omega) (by omega), hnext]
  set rest := block + headerSize + size with hrest
  have hheaderSize : headerSize = 17 := rfl
  rw [u32_of_lt (show rest < 4294967296 by omega)]
  set written := writeHeader rest (cell.size - size - headerSize) false
    (linkTo after back 0) block mem with hwritten
  have hlink : linkTo after back 0 < 4294967296 :=
    lt_of_le_of_lt (linkTo_le after back) (by omega)
  have hwrittenRest : nextOf written rest = linkTo after back 0 := by
    have hwrote := headerAt_writeHeader mem rest
      (cell.size - size - headerSize) false (linkTo after back 0) block
    exact (congrArg Header.next hwrote).trans (u32_of_lt hlink)
  have hwrittenBlock : headerAt written block = headerAt mem block :=
    headerAt_of_changesOnly (writeHeader_changesOnly _ _ _ _ _ _)
      (.inl (by omega))
  have hvia :
      nextOf written (if throughRest = true then rest else block) =
        linkTo after back 0 := by
    split_ifs
    · exact hwrittenRest
    · exact (congrArg Header.next hwrittenBlock).trans hnext
  rw [relink_eq_pointBack hvia (by omega)]

theorem splitBlock_represents
    {mem : ByteStore} {prev start size : ℕ} {front back : List Cell}
    {cell : Cell} (throughRest : Bool)
    (h : Represents mem 0 prev start (front ++ [cell] ++ back))
    (hstart : 0 < start) (hfit : size ≤ cell.size)
    (hlimit : start + extent (front ++ [cell] ++ back) < 4294967296) :
    Represents (splitBlock throughRest (start + extent front) size mem)
      0 prev start (front ++ splitCells size cell ++ back) := by
  rw [splitBlock_eq throughRest h hstart hfit hlimit]
  set block := start + extent front with hblock
  set after := block + cell.span with hafter
  have hspan : cell.span = headerSize + cell.size := rfl
  have hheader :
      headerAt mem block =
        ⟨heapMagic, cell.size, cell.used, linkTo after back 0,
          lastAddress prev start front⟩ := h.header
  have hbound : after + extent back < 4294967296 := by
    simp only [extent_append, extent_cons, extent_nil] at hlimit
    omega
  unfold splitCells
  by_cases hroom : headerSize + 8 ≤ cell.size - size
  swap
  · simpa [hroom] using h
  simp only [if_pos hroom]
  set rest := block + headerSize + size with hrest
  have hrestBound : rest + headerSize + 8 ≤ after := by omega
  have hheaderSize : headerSize = 17 := rfl
  set written := writeHeader rest (cell.size - size - headerSize) false
    (linkTo after back 0) block mem with hwritten
  have hlink : linkTo after back 0 < 4294967296 :=
    lt_of_le_of_lt (linkTo_le after back) (by omega)
  have hwrittenRest :
      headerAt written rest =
        ⟨heapMagic, cell.size - size - headerSize, false,
          linkTo after back 0, block⟩ := by
    rw [hwritten, headerAt_writeHeader, u32_of_lt (by omega),
      u32_of_lt hlink, u32_of_lt (by omega)]
  have hwrittenChanges : ChangesOnly mem written rest (rest + headerSize) :=
    writeHeader_changesOnly _ _ _ _ _ _
  have hwrittenBlock : headerAt written block = headerAt mem block :=
    headerAt_of_changesOnly hwrittenChanges (.inl (by omega))
  set linked := pointBack back after rest written with hlinked
  have hlinkedChanges :
      ChangesOnly written linked after (after + headerSize) :=
    pointBack_changesOnly back after rest written
  have hfinalChanges :
      ChangesOnly linked (setNext block rest (setSize block size linked))
        block (block + headerSize) := by
    intro k hk
    rw [setNext_changesOnly _ _ _ k hk, setSize_changesOnly _ _ _ k hk]
  refine h.replace (by simp) (by simp) (.inr ?_) ?_ ?_ ?_
  · simp only [extent_cons, extent_nil, Cell.span]
    omega
  · intro k hlow hhigh
    rw [hfinalChanges k (by omega), hlinkedChanges k (by omega),
      hwrittenChanges k (by omega)]
  · have hnewLink :
        linkTo (start + extent front +
          extent [⟨size, cell.used⟩,
            ⟨cell.size - size - headerSize, false⟩]) back 0 =
          linkTo after back 0 := by
      congr 1
      simp only [extent_cons, extent_nil, Cell.span]
      omega
    rw [hnewLink]
    refine ⟨?_, ?_, trivial⟩
    · rw [headerAt_setNext, headerAt_setSize,
        headerAt_of_changesOnly hlinkedChanges (.inl (by omega)),
        hwrittenBlock, hheader, u32_of_lt (by omega), u32_of_lt (by omega)]
      simp only [linkTo_cons, Cell.span, Header.mk.injEq, true_and, and_true]
      omega
    · have hstands : block + Cell.span ⟨size, cell.used⟩ = rest := by
        simp only [Cell.span]
        omega
      rw [← hblock, hstands,
        headerAt_of_changesOnly hfinalChanges (.inr (by omega)),
        headerAt_of_changesOnly hlinkedChanges (.inl (by omega)),
        hwrittenRest]
      simp only [linkTo_nil]
  · rintro y ys rfl
    have hstands :
        start + extent front + extent [cell] = after := by
      simp only [extent_cons, extent_nil]
      omega
    rw [hstands]
    have hyspan := headerSize_le_span y
    constructor
    · rw [headerAt_of_changesOnly hfinalChanges (.inr (by omega)), hlinked,
        headerAt_pointBack,
        headerAt_of_changesOnly hwrittenChanges (.inr (by omega)),
        u32_of_lt (by omega)]
      simp only [lastAddress_cons, lastAddress_nil, Cell.span]
      congr 1
      omega
    · intro k hlow hhigh
      rw [hfinalChanges k (by omega), hlinkedChanges k (by omega),
        hwrittenChanges k (by omega)]

/-! ## Marking a block -/

/-- `setUsed` on a block of a layout changes the flag of that block. -/
theorem setUsed_represents
    {mem : ByteStore} {prev start : ℕ} {front back : List Cell}
    {cell : Cell} (used : Bool)
    (h : Represents mem 0 prev start (front ++ [cell] ++ back)) :
    Represents (setUsed (start + extent front) used mem)
      0 prev start (front ++ [⟨cell.size, used⟩] ++ back) := by
  have hspan : cell.span = headerSize + cell.size := rfl
  have hchanges := setUsed_changesOnly mem (start + extent front) used
  refine h.replace (by simp) (by simp) (.inr ?_) ?_ ?_ ?_
  · simp [Cell.span]
  · exact hchanges.agreeOn (.inl le_rfl)
  · refine ⟨?_, trivial⟩
    rw [headerAt_setUsed, h.header]
    simp [Cell.span]
  · rintro y ys rfl
    have hsecond :
        Represents mem 0 prev start ((front ++ [cell]) ++ [y] ++ ys) := by
      simpa using h
    have hprev := congrArg Header.prev hsecond.header
    simp only [extent_append, extent_cons, extent_nil, Nat.add_zero,
      lastAddress_concat, ← Nat.add_assoc] at hprev
    simp only [lastAddress_cons, lastAddress_nil, extent_cons, extent_nil,
      Nat.add_zero]
    constructor
    · rw [headerAt_of_changesOnly hchanges (.inr (by omega))]
      exact Header.eq_with_prev hprev
    · exact hchanges.agreeOn (.inr (by omega))

/-! ## Joining two neighbours -/

/-- The headers of two neighbours in the middle of a layout. -/
theorem Represents.headerPair
    {mem : ByteStore} {prev start : ℕ} {front back : List Cell}
    {cell next : Cell}
    (h : Represents mem 0 prev start (front ++ [cell, next] ++ back)) :
    headerAt mem (start + extent front) =
        ⟨heapMagic, cell.size, cell.used,
          start + extent front + cell.span,
          lastAddress prev start front⟩ ∧
      headerAt mem (start + extent front + cell.span) =
        ⟨heapMagic, next.size, next.used,
          linkTo (start + extent front + cell.span + next.span) back 0,
          start + extent front⟩ := by
  have hfirst :
      Represents mem 0 prev start (front ++ [cell] ++ (next :: back)) := by
    simpa using h
  have hsecond :
      Represents mem 0 prev start ((front ++ [cell]) ++ [next] ++ back) := by
    simpa using h
  have hsecond := hsecond.header
  simp only [extent_append, extent_cons, extent_nil, Nat.add_zero,
    lastAddress_concat, ← Nat.add_assoc] at hsecond
  exact ⟨hfirst.header, hsecond⟩

/-- One header takes over the bytes of the block behind it.  Both directions
of coalescing end in this edit. -/
theorem absorb_represents
    {mem : ByteStore} {prev start : ℕ} {front back : List Cell}
    {cell next : Cell}
    (h : Represents mem 0 prev start (front ++ [cell, next] ++ back))
    (hlimit :
      start + extent (front ++ [cell, next] ++ back) < 4294967296) :
    Represents
      (pointBack back (start + extent front + cell.span + next.span)
        (start + extent front)
        (setNext (start + extent front)
          (linkTo (start + extent front + cell.span + next.span) back 0)
          (setSize (start + extent front)
            (cell.size + headerSize + next.size) mem)))
      0 prev start
      (front ++ [⟨cell.size + headerSize + next.size, cell.used⟩] ++
        back) := by
  set block := start + extent front with hblock
  set after := block + cell.span + next.span with hafter
  have hspan : cell.span = headerSize + cell.size := rfl
  have hnextSpan : next.span = headerSize + next.size := rfl
  have hheaderSize : headerSize = 17 := rfl
  have hheader := h.headerPair.1
  rw [← hblock] at hheader
  have hbound : after + extent back < 4294967296 := by
    simp only [extent_append, extent_cons, extent_nil] at hlimit
    omega
  have hlink : linkTo after back 0 < 4294967296 :=
    lt_of_le_of_lt (linkTo_le after back) (by omega)
  set joined := setNext block (linkTo after back 0)
    (setSize block (cell.size + headerSize + next.size) mem) with hjoined
  have hjoinedChanges :
      ChangesOnly mem joined block (block + headerSize) := by
    intro k hk
    rw [hjoined, setNext_changesOnly _ _ _ k hk,
      setSize_changesOnly _ _ _ k hk]
  have hpointed := pointBack_changesOnly back after block joined
  refine h.replace (by simp) (by simp) (.inr ?_) ?_ ?_ ?_
  · simp only [extent_cons, extent_nil, Cell.span]
    omega
  · intro k hlow hhigh
    rw [hpointed k (by omega), hjoinedChanges k (by omega)]
  · refine ⟨?_, trivial⟩
    rw [headerAt_of_changesOnly hpointed (.inl (by omega)), hjoined,
      headerAt_setNext, headerAt_setSize, hheader, u32_of_lt hlink,
      u32_of_lt (by omega)]
    simp only [linkTo_nil, Header.mk.injEq, true_and, and_true]
    congr 1
    simp only [extent_cons, extent_nil, Cell.span]
    omega
  · rintro y ys rfl
    have hstands : start + extent front + extent [cell, next] = after := by
      simp only [extent_cons, extent_nil]
      omega
    rw [hstands]
    have hyspan := headerSize_le_span y
    constructor
    · rw [headerAt_pointBack,
        headerAt_of_changesOnly hjoinedChanges (.inr (by omega)),
        u32_of_lt (by omega)]
      rfl
    · intro k hlow hhigh
      rw [hpointed k (by omega), hjoinedChanges k (by omega)]

/-- Absorbing the free block behind writes two fields of the block and the
back link behind the two. -/
theorem mergeNext_eq
    {mem : ByteStore} {prev start : ℕ} {front back : List Cell}
    {cell next : Cell}
    (h : Represents mem 0 prev start (front ++ [cell, next] ++ back))
    (hlimit :
      start + extent (front ++ [cell, next] ++ back) < 4294967296)
    (hfree : next.used = false) :
    mergeNext (start + extent front) mem =
      pointBack back (start + extent front + cell.span + next.span)
        (start + extent front)
        (setNext (start + extent front)
          (linkTo (start + extent front + cell.span + next.span) back 0)
          (setSize (start + extent front)
            (cell.size + headerSize + next.size) mem)) := by
  set block := start + extent front with hblock
  set after := block + cell.span + next.span with hafter
  have hspan : cell.span = headerSize + cell.size := rfl
  have hnextSpan : next.span = headerSize + next.size := rfl
  have hheaderSize : headerSize = 17 := rfl
  have hbound : after + extent back < 4294967296 := by
    simp only [extent_append, extent_cons, extent_nil] at hlimit
    omega
  have hlink : linkTo after back 0 < 4294967296 :=
    lt_of_le_of_lt (linkTo_le after back) (by omega)
  obtain ⟨hheader, hnextHeader⟩ := h.headerPair
  rw [← hblock] at hheader hnextHeader
  have hnext : nextOf mem block = block + cell.span :=
    congrArg Header.next hheader
  have hsize : sizeOf mem block = cell.size := congrArg Header.size hheader
  have hnextUsed : usedOf mem (block + cell.span) = false :=
    (congrArg Header.used hnextHeader).trans hfree
  have hnextSize : sizeOf mem (block + cell.span) = next.size :=
    congrArg Header.size hnextHeader
  unfold mergeNext
  rw [hnext, if_pos ⟨by omega, hnextUsed⟩, hsize, hnextSize,
    u32_of_lt (n := cell.size + headerSize + next.size) (by omega)]
  set grown := setSize block (cell.size + headerSize + next.size) mem
    with hgrown
  have hgrownNext : nextOf grown block = block + cell.span := by
    have hheader' := headerAt_setSize mem block
      (cell.size + headerSize + next.size)
    exact (congrArg Header.next hheader').trans hnext
  have hgrownLink :
      nextOf grown (block + cell.span) = linkTo after back 0 := by
    have hkept := headerAt_of_changesOnly
      (setSize_changesOnly mem block (cell.size + headerSize + next.size))
      (show block + cell.span + headerSize ≤ block ∨
        block + headerSize ≤ block + cell.span by omega)
    exact (congrArg Header.next hkept).trans
      (congrArg Header.next hnextHeader)
  simp only [hgrownNext, hgrownLink]
  rw [relink_eq_pointBack ?_ (show after ≠ 0 by omega)]
  have hset := headerAt_setNext grown block (linkTo after back 0)
  exact (congrArg Header.next hset).trans (u32_of_lt hlink)

theorem mergeNext_free
    {mem : ByteStore} {prev start : ℕ} {front back : List Cell}
    {cell next : Cell}
    (h : Represents mem 0 prev start (front ++ [cell, next] ++ back))
    (hlimit :
      start + extent (front ++ [cell, next] ++ back) < 4294967296)
    (hfree : next.used = false) :
    Represents (mergeNext (start + extent front) mem) 0 prev start
      (front ++ [⟨cell.size + headerSize + next.size, cell.used⟩] ++
        back) := by
  rw [mergeNext_eq h hlimit hfree]
  exact absorb_represents h hlimit

theorem mergeNext_last
    {mem : ByteStore} {prev start : ℕ} {front : List Cell} {cell : Cell}
    (h : Represents mem 0 prev start (front ++ [cell] ++ [])) :
    mergeNext (start + extent front) mem = mem := by
  have hnext : nextOf mem (start + extent front) = 0 :=
    congrArg Header.next h.header
  simp [mergeNext, hnext]

theorem mergeNext_used
    {mem : ByteStore} {prev start : ℕ} {front back : List Cell}
    {cell next : Cell}
    (h : Represents mem 0 prev start (front ++ [cell, next] ++ back))
    (hused : next.used = true) :
    mergeNext (start + extent front) mem = mem := by
  obtain ⟨hheader, hnextHeader⟩ := h.headerPair
  have hnext :
      nextOf mem (start + extent front) =
        start + extent front + cell.span :=
    congrArg Header.next hheader
  have hnextUsed :
      usedOf mem (start + extent front + cell.span) = true :=
    (congrArg Header.used hnextHeader).trans hused
  simp [mergeNext, hnext, hnextUsed]

theorem mergePrev_first
    {mem : ByteStore} {start : ℕ} {back : List Cell} {cell : Cell}
    (h : Represents mem 0 0 start ([] ++ [cell] ++ back)) :
    mergePrev start mem = mem := by
  have hprev : prevOf mem start = 0 := congrArg Header.prev h.1
  simp [mergePrev, hprev]

theorem mergePrev_used
    {mem : ByteStore} {prev start : ℕ} {front back : List Cell}
    {before cell : Cell}
    (h : Represents mem 0 prev start (front ++ [before, cell] ++ back))
    (hused : before.used = true) :
    mergePrev (start + extent front + before.span) mem = mem := by
  obtain ⟨hheader, hcellHeader⟩ := h.headerPair
  have hprev :
      prevOf mem (start + extent front + before.span) =
        start + extent front :=
    congrArg Header.prev hcellHeader
  have hbefore : usedOf mem (start + extent front) = true :=
    (congrArg Header.used hheader).trans hused
  simp [mergePrev, hprev, hbefore]

/-- The free block before takes over the block: two of its fields and the
back link behind are written. -/
theorem mergePrev_eq
    {mem : ByteStore} {prev start : ℕ} {front back : List Cell}
    {before cell : Cell}
    (h : Represents mem 0 prev start (front ++ [before, cell] ++ back))
    (hstart : 0 < start)
    (hlimit :
      start + extent (front ++ [before, cell] ++ back) < 4294967296)
    (hfree : before.used = false) :
    mergePrev (start + extent front + before.span) mem =
      pointBack back (start + extent front + before.span + cell.span)
        (start + extent front)
        (setNext (start + extent front)
          (linkTo (start + extent front + before.span + cell.span) back 0)
          (setSize (start + extent front)
            (before.size + headerSize + cell.size) mem)) := by
  set block := start + extent front with hblock
  set after := block + before.span + cell.span with hafter
  have hspan : before.span = headerSize + before.size := rfl
  have hcellSpan : cell.span = headerSize + cell.size := rfl
  have hheaderSize : headerSize = 17 := rfl
  have hbound : after + extent back < 4294967296 := by
    simp only [extent_append, extent_cons, extent_nil] at hlimit
    omega
  obtain ⟨hheader, hcellHeader⟩ := h.headerPair
  rw [← hblock] at hheader hcellHeader
  have hprev : prevOf mem (block + before.span) = block :=
    congrArg Header.prev hcellHeader
  have hbeforeUsed : usedOf mem block = false :=
    (congrArg Header.used hheader).trans hfree
  have hbeforeSize : sizeOf mem block = before.size :=
    congrArg Header.size hheader
  have hcellSize : sizeOf mem (block + before.span) = cell.size :=
    congrArg Header.size hcellHeader
  unfold mergePrev
  rw [hprev, if_pos ⟨by omega, hbeforeUsed⟩]
  dsimp only
  rw [hbeforeSize, hcellSize,
    u32_of_lt (n := before.size + headerSize + cell.size) (by omega)]
  set grown := setSize block (before.size + headerSize + cell.size) mem
    with hgrown
  have hgrownCell :
      headerAt grown (block + before.span) =
        headerAt mem (block + before.span) :=
    headerAt_of_changesOnly (setSize_changesOnly mem block _)
      (.inr (by omega))
  have hgrownLink :
      nextOf grown (block + before.span) = linkTo after back 0 :=
    congrArg Header.next (hgrownCell.trans hcellHeader)
  simp only [hgrownLink]
  set linked := setNext block (linkTo after back 0) grown with hlinked
  have hlinkedCell :
      headerAt linked (block + before.span) =
        headerAt mem (block + before.span) :=
    (headerAt_of_changesOnly (setNext_changesOnly grown block _)
      (.inr (by omega))).trans hgrownCell
  have hlinkedNext :
      nextOf linked (block + before.span) = linkTo after back 0 :=
    congrArg Header.next (hlinkedCell.trans hcellHeader)
  have hlinkedPrev : prevOf linked (block + before.span) = block :=
    congrArg Header.prev (hlinkedCell.trans hcellHeader)
  rw [hlinkedPrev, setPrev_eq_pointBack hlinkedNext (by omega)]

theorem mergePrev_free
    {mem : ByteStore} {prev start : ℕ} {front back : List Cell}
    {before cell : Cell}
    (h : Represents mem 0 prev start (front ++ [before, cell] ++ back))
    (hstart : 0 < start)
    (hlimit :
      start + extent (front ++ [before, cell] ++ back) < 4294967296)
    (hfree : before.used = false) :
    Represents (mergePrev (start + extent front + before.span) mem)
      0 prev start
      (front ++ [⟨before.size + headerSize + cell.size, before.used⟩] ++
        back) := by
  rw [mergePrev_eq h hstart hlimit hfree]
  exact absorb_represents h hlimit

/-! ## Appending a block -/

/-- A fresh free block behind the last one. -/
theorem append_represents
    {mem : ByteStore} {prev start : ℕ} {front : List Cell}
    {last : Cell} (size : ℕ)
    (h : Represents mem 0 prev start (front ++ [last] ++ []))
    (hlimit :
      start + extent (front ++ [last]) + headerSize + size <
        4294967296) :
    Represents
      (setNext (start + extent front) (start + extent front + last.span)
        (writeHeader (start + extent front + last.span) size false 0
          (start + extent front) mem))
      0 prev start (front ++ [last, ⟨size, false⟩] ++ []) := by
  set block := start + extent front with hblock
  have hspan : last.span = headerSize + last.size := rfl
  have hbound : block + last.span + headerSize + size < 4294967296 := by
    simp only [extent_append, extent_cons, extent_nil] at hlimit
    omega
  have hwritten := writeHeader_changesOnly mem (block + last.span) size
    false 0 block
  have hset := setNext_changesOnly
    (writeHeader (block + last.span) size false 0 block mem) block
    (block + last.span)
  refine h.replace (by simp) (by simp) (.inl rfl) ?_ ?_ ?_
  · intro k hlow hhigh
    rw [hset k (by omega), hwritten k (by omega)]
  · refine ⟨?_, ?_, trivial⟩
    · rw [headerAt_setNext, headerAt_of_changesOnly hwritten (.inl (by omega)),
        h.header, u32_of_lt (by omega)]
      rfl
    · rw [← hblock, headerAt_of_changesOnly hset (.inr (by omega)),
        headerAt_writeHeader, u32_of_lt (by omega), u32_of_lt (by omega),
        u32_of_lt (by omega)]
      rfl
  · intro cell cells hnil
    cases hnil

end ClOs.Heap
