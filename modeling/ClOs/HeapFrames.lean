import ClOs.HeapRun

/-!
# What the heap calls leave alone

`kmalloc` and `kfree` write headers of blocks and nothing else.  The payloads
of live allocations lie apart from all headers and from each other, so no call
writes into them.
-/

namespace ClOs.Heap

open Memory

/-! ## Blocks apart -/

theorem mem_locate_bounds
    {address block : ℕ} {cell : Cell} {cells : List Cell}
    (hmem : (block, cell) ∈ locate address cells) :
    address ≤ block ∧ block + cell.span ≤ address + extent cells := by
  obtain ⟨front, back, rfl, rfl⟩ := mem_locate_iff.mp hmem
  simp only [extent_append, extent_cons, extent_nil]
  omega

theorem locate_apart
    {address block block' : ℕ} {cell cell' : Cell} {cells : List Cell}
    (hmem : (block, cell) ∈ locate address cells)
    (hmem' : (block', cell') ∈ locate address cells) :
    (block = block' ∧ cell = cell') ∨ block + cell.span ≤ block' ∨
      block' + cell'.span ≤ block := by
  induction cells generalizing address with
  | nil => cases hmem
  | cons first cells ih =>
      simp only [locate, List.mem_cons, Prod.mk.injEq] at hmem hmem'
      rcases hmem with ⟨rfl, rfl⟩ | hmem
      · rcases hmem' with ⟨rfl, rfl⟩ | hmem'
        · exact .inl ⟨rfl, rfl⟩
        · exact .inr (.inl (mem_locate_bounds hmem').1)
      · rcases hmem' with ⟨rfl, rfl⟩ | hmem'
        · exact .inr (.inr (mem_locate_bounds hmem).1)
        · exact ih hmem hmem'

def ClearOf (address : ℕ) (cells : List Cell) (k : ℕ) : Prop :=
  ∀ entry ∈ locate address cells, k < entry.1 ∨ entry.1 + headerSize ≤ k

theorem clearOf_payload
    {address block k : ℕ} {cell : Cell} {cells : List Cell}
    (hmem : (block, cell) ∈ locate address cells)
    (hlow : block + headerSize ≤ k) (hhigh : k < block + cell.span) :
    ClearOf address cells k := by
  rintro ⟨other, cell'⟩ hother
  have hspan := headerSize_le_span cell'
  simp only
  rcases locate_apart hmem hother with ⟨rfl, -⟩ | hbefore | hafter
  · exact .inr hlow
  · exact .inl (by omega)
  · exact .inr (by omega)

theorem clearOf_append
    {address k : ℕ} {front back : List Cell} :
    ClearOf address (front ++ back) k ↔
      ClearOf address front k ∧
        ClearOf (address + extent front) back k := by
  simp only [ClearOf, locate_append, List.mem_append]
  constructor
  · intro h
    exact ⟨fun entry hentry => h entry (.inl hentry),
      fun entry hentry => h entry (.inr hentry)⟩
  · rintro ⟨hfront, hback⟩ entry (hentry | hentry)
    · exact hfront entry hentry
    · exact hback entry hentry

theorem clearOf_cons
    {address k : ℕ} {cell : Cell} {cells : List Cell} :
    ClearOf address (cell :: cells) k ↔
      (k < address ∨ address + headerSize ≤ k) ∧
        ClearOf (address + cell.span) cells k := by
  simp [ClearOf, locate]

theorem pointBack_outside
    {back : List Cell} {block target k : ℕ} (mem : ByteStore)
    (hclear : ClearOf block back k) :
    pointBack back block target mem k = mem k := by
  cases back with
  | nil => rfl
  | cons cell cells =>
      exact pointBack_changesOnly _ _ _ _ k (clearOf_cons.1 hclear).1

/-- A byte that keeps its value when the sizes and the links of a layout are
changed: it lies outside all headers or is a flag. -/
def SparedBy (address : ℕ) (cells : List Cell) (k : ℕ) : Prop :=
  ∀ entry ∈ locate address cells,
    k < entry.1 ∨ entry.1 + headerSize ≤ k ∨ k = entry.1 + 8

theorem ClearOf.spared
    {address k : ℕ} {cells : List Cell} (h : ClearOf address cells k) :
    SparedBy address cells k :=
  fun entry hentry => (h entry hentry).imp id .inl

theorem sparedBy_append
    {address k : ℕ} {front back : List Cell} :
    SparedBy address (front ++ back) k ↔
      SparedBy address front k ∧
        SparedBy (address + extent front) back k := by
  simp only [SparedBy, locate_append, List.mem_append]
  constructor
  · intro h
    exact ⟨fun entry hentry => h entry (.inl hentry),
      fun entry hentry => h entry (.inr hentry)⟩
  · rintro ⟨hfront, hback⟩ entry (hentry | hentry)
    · exact hfront entry hentry
    · exact hback entry hentry

theorem sparedBy_cons
    {address k : ℕ} {cell : Cell} {cells : List Cell} :
    SparedBy address (cell :: cells) k ↔
      (k < address ∨ address + headerSize ≤ k ∨ k = address + 8) ∧
        SparedBy (address + cell.span) cells k := by
  simp [SparedBy, locate]

theorem setSize_spared
    (mem : ByteStore) {block k : ℕ} (value : ℕ)
    (h : k < block ∨ block + headerSize ≤ k ∨ k = block + 8) :
    setSize block value mem k = mem k :=
  ByteStore.put32_outside _ (by simp only [headerSize] at h; omega)

theorem setNext_spared
    (mem : ByteStore) {block k : ℕ} (value : ℕ)
    (h : k < block ∨ block + headerSize ≤ k ∨ k = block + 8) :
    setNext block value mem k = mem k :=
  ByteStore.put32_outside _ (by simp only [headerSize] at h; omega)

theorem pointBack_spared
    {back : List Cell} {block target k : ℕ} (mem : ByteStore)
    (h : SparedBy block back k) :
    pointBack back block target mem k = mem k := by
  cases back with
  | nil => rfl
  | cons cell cells =>
      have hhead := (sparedBy_cons.1 h).1
      exact ByteStore.put32_outside _ (by
        simp only [headerSize] at hhead
        omega)

/-! ## Edits -/

theorem splitBlock_outside
    {mem : ByteStore} {prev start size k : ℕ} {front back : List Cell}
    {cell : Cell} (throughRest : Bool)
    (h : Represents mem 0 prev start (front ++ [cell] ++ back))
    (hstart : 0 < start) (hfit : size ≤ cell.size)
    (hlimit : start + extent (front ++ [cell] ++ back) < 4294967296)
    (hblock : k < start + extent front ∨
      start + extent front + cell.span ≤ k)
    (hclear : ClearOf (start + extent front + cell.span) back k) :
    splitBlock throughRest (start + extent front) size mem k = mem k := by
  have hspan : cell.span = headerSize + cell.size := rfl
  have hheaderSize : headerSize = 17 := rfl
  rw [splitBlock_eq throughRest h hstart hfit hlimit]
  split_ifs with hroom
  · rw [setNext_changesOnly _ _ _ k (by omega),
      setSize_changesOnly _ _ _ k (by omega), pointBack_outside _ hclear,
      writeHeader_changesOnly _ _ _ _ _ _ k (by omega)]
  · rfl

theorem mergeNext_spared
    {mem : ByteStore} {prev start k : ℕ} {front back : List Cell}
    {cell : Cell}
    (h : Represents mem 0 prev start (front ++ [cell] ++ back))
    (hlimit : start + extent (front ++ [cell] ++ back) < 4294967296)
    (hspared : SparedBy start (front ++ [cell] ++ back) k) :
    mergeNext (start + extent front) mem k = mem k := by
  cases back with
  | nil => rw [mergeNext_last h]
  | cons next tail =>
      have hpair : Represents mem 0 prev start
          (front ++ [cell, next] ++ tail) := by
        simpa using h
      by_cases hused : next.used = true
      · rw [mergeNext_used hpair hused]
      · have hfree : next.used = false := by simpa using hused
        simp only [List.append_assoc, List.singleton_append, sparedBy_append,
          sparedBy_cons] at hspared
        obtain ⟨-, hcell, -, htail⟩ := hspared
        rw [mergeNext_eq hpair (by simpa using hlimit) hfree,
          pointBack_spared _ htail, setNext_spared _ _ hcell,
          setSize_spared _ _ hcell]

theorem mergePrev_spared
    {mem : ByteStore} {start k : ℕ} {front back : List Cell}
    {cell : Cell}
    (h : Represents mem 0 0 start (front ++ [cell] ++ back))
    (hstart : 0 < start)
    (hlimit : start + extent (front ++ [cell] ++ back) < 4294967296)
    (hspared : SparedBy start (front ++ [cell] ++ back) k) :
    mergePrev (start + extent front) mem k = mem k := by
  rcases List.eq_nil_or_concat front with rfl | ⟨lead, before, hfront⟩
  · rw [extent_nil, Nat.add_zero, mergePrev_first h]
  · rw [List.concat_eq_append] at hfront
    subst hfront
    have hpair : Represents mem 0 0 start
        (lead ++ [before, cell] ++ back) := by
      simpa using h
    have hstands :
        start + extent (lead ++ [before]) =
          start + extent lead + before.span := by
      simp [Nat.add_assoc]
    rw [hstands]
    by_cases hused : before.used = true
    · rw [mergePrev_used hpair hused]
    · have hfree : before.used = false := by simpa using hused
      have hlisted : SparedBy start (lead ++ (before :: cell :: back)) k := by
        simpa using hspared
      rw [sparedBy_append, sparedBy_cons, sparedBy_cons] at hlisted
      obtain ⟨-, hbefore, -, hback⟩ := hlisted
      rw [mergePrev_eq hpair hstart (by simpa using hlimit) hfree,
        pointBack_spared _ hback, setNext_spared _ _ hbefore,
        setSize_spared _ _ hbefore]

/-! ## Calls -/

/-- `kfree` changes sizes and links of headers, and the flag of the block that it
frees. -/
theorem kfree_spared
    {s next : State} {front back : List Cell} {cell : Cell} {k : ℕ}
    (h : Inv s (front ++ [cell] ++ back))
    (hused : cell.used = true) (hpositive : 0 < cell.size)
    (hcall : kfree (kernelMalloc + extent front + headerSize) s = .ok next)
    (hspared : SparedBy kernelMalloc
      (front ++ [⟨cell.size, false⟩] ++ back) k) :
    next.mem k = setUsed (kernelMalloc + extent front) false s.mem k := by
  have hlimit := h.limit
  have hkernel := kernelMalloc_eq
  rw [kfree_eq h hused hpositive] at hcall
  cases hcall
  have hmarked := setUsed_represents false h.represents
  have hmarkedLimit : kernelMalloc +
      extent (front ++ [⟨cell.size, false⟩] ++ back) < 4294967296 := by
    simpa [Cell.span] using hlimit
  have hseparated := (separated_middle (by simp)).mp h.separated
  obtain ⟨after, tail, hback, -, -, hforward⟩ :=
    mergeNext_spec hmarked hmarkedLimit hseparated.2.2.1
  have hextent : extent back = extent after + extent tail := by
    rw [hback, extent_append]
  have hforwardSpared : SparedBy kernelMalloc
      (front ++ [⟨cell.size + extent after, false⟩] ++ tail) k := by
    have hlisted := hspared
    rw [hback] at hlisted
    simp only [List.append_assoc, List.singleton_append, sparedBy_append,
      sparedBy_cons] at hlisted ⊢
    obtain ⟨hfront, hcell, -, htail⟩ := hlisted
    refine ⟨hfront, hcell, ?_⟩
    simpa [Cell.span, Nat.add_assoc] using htail
  have hforwardLimit : kernelMalloc +
      extent (front ++ [⟨cell.size + extent after, false⟩] ++ tail) <
        4294967296 := by
    simp only [extent_append, extent_cons, extent_nil,
      Cell.span] at hmarkedLimit ⊢
    omega
  simp only
  rw [mergePrev_spared hforward (by omega) hforwardLimit hforwardSpared,
    mergeNext_spared hmarked hmarkedLimit hspared]

theorem kfree_outside
    {s next : State} {front back : List Cell} {cell : Cell} {k : ℕ}
    (h : Inv s (front ++ [cell] ++ back))
    (hused : cell.used = true) (hpositive : 0 < cell.size)
    (hcall : kfree (kernelMalloc + extent front + headerSize) s = .ok next)
    (hclear : ClearOf kernelMalloc (front ++ [cell] ++ back) k) :
    next.mem k = s.mem k := by
  have hmarked : ClearOf kernelMalloc
      (front ++ [⟨cell.size, false⟩] ++ back) k := by
    simpa [clearOf_append, clearOf_cons, Cell.span] using hclear
  have hcell : k < kernelMalloc + extent front ∨
      kernelMalloc + extent front + headerSize ≤ k := by
    simp only [List.append_assoc, List.singleton_append, clearOf_append,
      clearOf_cons] at hclear
    exact hclear.2.1
  rw [kfree_spared h hused hpositive hcall hmarked.spared,
    setUsed_changesOnly _ _ _ k hcell]

theorem joinLast_outside
    {mem joined : ByteStore} {start size block k : ℕ} {front : List Cell}
    {last : Cell}
    (h : Represents mem 0 0 start (front ++ [last, ⟨size, false⟩] ++ []))
    (hstart : 0 < start)
    (hlimit :
      start + extent (front ++ [last, ⟨size, false⟩] ++ []) < 4294967296)
    (hjoin : joinLast (start + extent front + last.span)
      (start + extent front) mem = (block, joined))
    (hclear : ClearOf start (front ++ [last, ⟨size, false⟩]) k) :
    joined k = mem k := by
  obtain ⟨hheader, hnextHeader⟩ := h.headerPair
  have hused : usedOf mem (start + extent front) = last.used :=
    congrArg Header.used hheader
  by_cases hfree : last.used = false
  · rw [joinLast_free (show start + extent front ≠ 0 by omega)
      (show start + extent front + last.span ≠ 0 by omega)
      (hused.trans hfree)
      (congrArg Header.next hheader)
      (congrArg Header.used hnextHeader)] at hjoin
    simp only [Prod.mk.injEq] at hjoin
    rw [← hjoin.2]
    apply @mergeNext_spared mem 0 start k front [⟨size, false⟩] last
    · simpa using h
    · simpa using hlimit
    · simpa using hclear.spared
  · have hsame : joinLast (start + extent front + last.span)
        (start + extent front) mem =
          (start + extent front + last.span, mem) := by
      simp [joinLast, hused, hfree]
    rw [hsame] at hjoin
    simp only [Prod.mk.injEq] at hjoin
    rw [← hjoin.2]

theorem growAndTake_outside
    {s next : State} {size ptr block k : ℕ} {front : List Cell}
    {last cell : Cell}
    (h : Inv s (front ++ [last]))
    (hsize : size ≤ 0x40000000) (hunfit : Unfit size last)
    (hgrow : growAndTake size (kernelMalloc + extent front) s =
      .ok (ptr, next))
    (hmem : (block, cell) ∈ locate kernelMalloc (front ++ [last]))
    (hused : cell.used = true)
    (hlow : block + headerSize ≤ k) (hhigh : k < block + cell.span) :
    next.mem k = s.mem k := by
  obtain ⟨grown, vm, front', taken, joined, hgrown, -, -, hjoin, happended,
    happendedLimit, hjoined, -, hfit, hextents, hfront', -, rfl⟩ :=
    growAndTake_eq h hsize hunfit hgrow
  have hkernel := kernelMalloc_eq
  have hbounds := mem_locate_bounds hmem
  have hclear := clearOf_payload hmem hlow hhigh
  have hlimit := h.heapSize_le
  simp only [extent_append, extent_cons, extent_nil] at hbounds
  have hbelow : k < kernelMalloc + extent front' := by
    split_ifs at hfront' with hlast
    · rw [hfront']
      simp only [locate_append, locate, List.mem_append, List.mem_singleton,
        Prod.mk.injEq] at hmem
      rcases hmem with hmem | ⟨-, rfl⟩
      · have hinside := (mem_locate_bounds hmem).2
        omega
      · rw [hlast] at hused
        cases hused
    · rw [hfront']
      simp only [extent_append, extent_cons, extent_nil]
      omega
  have hall : ClearOf kernelMalloc
      (front ++ [last, ⟨grown - headerSize, false⟩]) k := by
    rw [clearOf_append, clearOf_cons] at hclear ⊢
    refine ⟨hclear.1, hclear.2.1, clearOf_cons.2 ⟨.inl (by omega), ?_⟩⟩
    intro entry hentry
    cases hentry
  have hlast : k < kernelMalloc + extent front ∨
      kernelMalloc + extent front + headerSize ≤ k := by
    rw [clearOf_append, clearOf_cons] at hclear
    exact hclear.2.1
  have hspan := headerSize_le_span taken
  have hjoinedLimit : kernelMalloc + extent (front' ++ [taken] ++ []) <
      4294967296 := by
    simp only [extent_append, extent_cons, extent_nil]
    omega
  simp only
  rw [setUsed_changesOnly _ _ _ k (.inl hbelow),
    splitBlock_outside true hjoined (by omega) hfit hjoinedLimit
      (.inl hbelow) (fun entry hentry => by cases hentry),
    joinLast_outside happended (by omega) happendedLimit hjoin hall,
    appendBlock, setNext_changesOnly _ _ _ k hlast,
    writeHeader_changesOnly _ _ _ _ _ _ k (.inl (by omega))]

theorem kmalloc_outside
    {s next : State} {cells : List Cell} {size ptr block k : ℕ}
    {cell : Cell}
    (h : Inv s cells) (hsize : size < 0x40000000)
    (hcall : kmalloc size s = .ok (ptr, next))
    (hmem : (block, cell) ∈ locate kernelMalloc cells)
    (hused : cell.used = true)
    (hlow : block + headerSize ≤ k) (hhigh : k < block + cell.span) :
    next.mem k = s.mem k := by
  rcases Nat.eq_zero_or_pos size with rfl | hpositive
  · unfold kmalloc at hcall
    rw [h.kmallocInit_eq] at hcall
    cases hcall
    rfl
  · have hkernel := kernelMalloc_eq
    obtain ⟨rounded, -, hround, hcases⟩ :=
      kmalloc_cases h hpositive hsize hcall
    rcases hcases with
      ⟨front, found, back, rfl, hfree, hfit, -, rfl⟩ |
        ⟨front, last, rfl, hunfit, hgrow⟩
    · have hfound : (kernelMalloc + extent front, found) ∈
          locate kernelMalloc (front ++ [found] ++ back) :=
        mem_locate_iff.2 ⟨front, back, rfl, rfl⟩
      have hspan := headerSize_le_span found
      have hapart : k < kernelMalloc + extent front ∨
          kernelMalloc + extent front + found.span ≤ k := by
        rcases locate_apart hmem hfound with ⟨-, rfl⟩ | hbefore | hafter
        · rw [hfree] at hused
          cases hused
        · exact .inl (by omega)
        · exact .inr (by omega)
      have hclear := clearOf_payload hmem hlow hhigh
      simp only [List.append_assoc, List.singleton_append, clearOf_append,
        clearOf_cons] at hclear
      simp only
      rw [setUsed_changesOnly _ _ _ k hclear.2.1,
        splitBlock_outside false h.represents (by omega) hfit h.limit hapart
          hclear.2.2]
    · exact growAndTake_outside h hround hunfit hgrow hmem hused hlow hhigh

/-! ## The allocator's contract -/

/-- The number of bytes behind a pointer that `kmalloc` has returned. -/
def payloadSize (client : Client) (ptr : ℕ) : ℕ :=
  sizeOf client.heap.mem (ptr - headerSize)

/-- The live payloads are large enough, apart from each other and from all
headers, and inside the heap. -/
structure Client.Contract (client : Client) : Prop where
  enough : ∀ ptr size, (ptr, size) ∈ client.live →
    size ≤ payloadSize client ptr
  inside : ∀ ptr size, (ptr, size) ∈ client.live →
    kernelMalloc ≤ ptr ∧
      ptr + payloadSize client ptr ≤ kernelMalloc + client.heap.heapSize
  apart : client.live.Pairwise fun entry other =>
    entry.1 + payloadSize client entry.1 ≤ other.1 ∨
      other.1 + payloadSize client other.1 ≤ entry.1
  headers : ∃ blocks, Walk client.heap.mem client.heap.heapHead blocks ∧
    ∀ block ∈ blocks, ∀ ptr size, (ptr, size) ∈ client.live →
      ptr + payloadSize client ptr ≤ block ∨ block + headerSize ≤ ptr

/-- Live pointers are different. -/
def Client.Distinct (client : Client) : Prop :=
  client.live.Pairwise fun entry other => entry.1 ≠ other.1

theorem sizeOf_located
    {mem : ByteStore} {prev address block : ℕ} {cell : Cell}
    {cells : List Cell}
    (h : Represents mem 0 prev address cells)
    (hmem : (block, cell) ∈ locate address cells) :
    sizeOf mem block = cell.size := by
  obtain ⟨front, back, rfl, rfl⟩ := mem_locate_iff.mp hmem
  exact congrArg Header.size h.header

theorem addresses_eq_map (address : ℕ) (cells : List Cell) :
    addresses address cells = (locate address cells).map Prod.fst := by
  induction cells generalizing address with
  | nil => rfl
  | cons cell cells ih => simp [addresses, locate, ih]

/-- Where a live pointer points. -/
theorem LiveBlocks.located
    {client : Client} {cells : List Cell} {ptr size : ℕ}
    (hinv : Inv client.heap cells)
    (hlive : LiveBlocks client.live cells)
    (hmem : (ptr, size) ∈ client.live) :
    ∃ block cell, ptr = block + headerSize ∧
      (block, cell) ∈ locate kernelMalloc cells ∧ cell.used = true ∧
        size ≤ cell.size ∧ 0 < cell.size ∧
          payloadSize client ptr = cell.size := by
  obtain ⟨hpositive, block, cell, hblock, hlocated, hused, hfits⟩ :=
    hlive _ hmem
  dsimp only at hpositive hblock hfits
  refine ⟨block, cell, hblock, hlocated, hused, hfits, by omega, ?_⟩
  unfold payloadSize
  rw [hblock, Nat.add_sub_cancel]
  exact sizeOf_located hinv.represents hlocated

theorem Client.Good.contract
    {client : Client} (hgood : client.Good) (hdistinct : client.Distinct) :
    client.Contract := by
  obtain ⟨cells, hinv, hlive⟩ := hgood
  have hheap := hinv.extent_eq
  have hheaderSize : headerSize = 17 := rfl
  refine ⟨?_, ?_, ?_, addresses kernelMalloc cells, hinv.tiles.walk, ?_⟩
  · intro ptr size hmem
    obtain ⟨block, cell, -, -, -, hfits, -, hsize⟩ := hlive.located hinv hmem
    rwa [hsize]
  · intro ptr size hmem
    obtain ⟨block, cell, rfl, hlocated, -, -, -, hsize⟩ :=
      hlive.located hinv hmem
    have hbounds := mem_locate_bounds hlocated
    unfold Cell.span at hbounds
    omega
  · refine hdistinct.imp_of_mem ?_
    rintro ⟨ptr, size⟩ ⟨ptr', size'⟩ hmem hmem' hne
    obtain ⟨block, cell, rfl, hlocated, -, -, -, hsize⟩ :=
      hlive.located hinv hmem
    obtain ⟨block', cell', rfl, hlocated', -, -, -, hsize'⟩ :=
      hlive.located hinv hmem'
    dsimp only at hne ⊢
    rw [hsize, hsize']
    rcases locate_apart hlocated hlocated' with ⟨rfl, -⟩ | hbefore | hafter
    · exact absurd rfl hne
    · unfold Cell.span at hbefore
      omega
    · unfold Cell.span at hafter
      omega
  · intro block hblock ptr size hmem
    obtain ⟨own, cell, rfl, hlocated, -, -, -, hsize⟩ :=
      hlive.located hinv hmem
    rw [addresses_eq_map] at hblock
    obtain ⟨⟨start, other⟩, hother, rfl⟩ := List.mem_map.1 hblock
    rw [hsize]
    dsimp only
    rcases locate_apart hlocated hother with ⟨rfl, -⟩ | hbefore | hafter
    · exact .inr le_rfl
    · unfold Cell.span at hbefore
      exact .inl (by omega)
    · unfold Cell.span at hafter
      exact .inr (by omega)

/-! ## Histories -/

theorem Client.Good.fresh
    {client : Client} {next : State} {size ptr : ℕ}
    (hgood : client.Good) (hpositive : 0 < size) (hsize : size < 0x40000000)
    (hcall : Heap.kmalloc size client.heap = .ok (ptr, next)) :
    ∀ entry ∈ client.live, ptr ≠ entry.1 := by
  obtain ⟨cells, hinv, hlive⟩ := hgood
  obtain ⟨front, old, back, room, rest, rfl, hold, -, -, rfl, hextent, -⟩ :=
    kmalloc_spec hinv hpositive hsize hcall
  rintro ⟨other, n⟩ hentry hsame
  obtain ⟨block, cell, hblock, hmem, hused, -⟩ := hlive.located hinv hentry
  have hspan := headerSize_le_span cell
  have hheaderSize : headerSize = 17 := rfl
  dsimp only at hsame
  have hstands : block = kernelMalloc + extent front := by omega
  subst hstands
  simp only [locate_append, List.mem_append] at hmem
  rcases hmem with (hmem | hmem) | hmem
  · have hinside := (mem_locate_bounds hmem).2
    omega
  · exact not_mem_locate_of_free hold hused hmem
  · have hfrom := (mem_locate_bounds hmem).1
    rcases hextent with rfl | hextent
    · cases hmem
    · have hroom := headerSize_le_span ⟨room, true⟩
      simp only [extent_cons, extent_append] at hextent hfrom
      omega

theorem Client.Reachable.distinct {client : Client}
    (hreach : client.Reachable) : client.Distinct := by
  induction hreach with
  | boot hfresh hinit => exact List.Pairwise.nil
  | @step client next request hprev hallowed hserve hdistinct =>
      cases request with
      | kmalloc size =>
          obtain ⟨⟨ptr, heap⟩, hcall, hnext⟩ :=
            Outcome.bind_eq_ok.mp hserve
          cases hnext
          unfold Client.Distinct
          dsimp only
          split_ifs with hzero
          · exact hdistinct
          · refine List.Pairwise.cons ?_ hdistinct
            rcases Nat.eq_zero_or_pos size with rfl | hpositive
            · obtain ⟨cells, hinv, -⟩ := hprev.good
              unfold Heap.kmalloc at hcall
              rw [hinv.kmallocInit_eq] at hcall
              cases hcall
              exact absurd rfl hzero
            · exact hprev.good.fresh hpositive hallowed hcall
      | kfree ptr =>
          obtain ⟨heap, hcall, hnext⟩ := Outcome.bind_eq_ok.mp hserve
          cases hnext
          exact hdistinct.filter _
      | store address byte =>
          cases hserve
          exact hdistinct

end ClOs.Heap
