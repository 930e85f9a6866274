import ClOs.HeapFrames

/-!
# The order of heap calls

A layout is brought into normal form by joining free neighbours.  `kfree` marks
a block and joins, so its result is the normal form of the marked layout, and
blocks may be marked in any order.  A block that has just been taken is given
back by the same rule, whichever way it was found.
-/

namespace ClOs.Heap

open Memory

/-! ## Joining free neighbours -/

/-- Put a block in front of a joined layout. -/
def joinCell (cell : Cell) : List Cell → List Cell
  | [] => [cell]
  | next :: rest =>
      if cell.used = false ∧ next.used = false then
        ⟨cell.size + next.span, false⟩ :: rest
      else cell :: next :: rest

/-- Join all free neighbours of a layout. -/
def coalesce (cells : List Cell) : List Cell := cells.foldr joinCell []

section

variable {cell : Cell} {cells front middle middle' back : List Cell}

@[simp] theorem coalesce_nil : coalesce [] = [] := rfl

@[simp] theorem coalesce_cons (cell : Cell) (cells : List Cell) :
    coalesce (cell :: cells) = joinCell cell (coalesce cells) := rfl

@[simp] theorem extent_joinCell (cell : Cell) (cells : List Cell) :
    extent (joinCell cell cells) = cell.span + extent cells := by
  cases cells with
  | nil => rfl
  | cons next rest =>
      simp only [joinCell]
      split_ifs
      · simp only [extent_cons, Cell.span]
        omega
      · rfl

@[simp] theorem extent_coalesce (cells : List Cell) :
    extent (coalesce cells) = extent cells := by
  induction cells with
  | nil => rfl
  | cons cell cells ih => rw [coalesce_cons, extent_joinCell, ih, extent_cons]

theorem joinCell_append (cell : Cell) (back : List Cell) (hne : cells ≠ []) :
    joinCell cell (cells ++ back) = joinCell cell cells ++ back := by
  cases cells with
  | nil => exact absurd rfl hne
  | cons next rest =>
      simp only [List.cons_append, joinCell]
      split_ifs <;> rfl

theorem joinCell_used
    (hused : cell.used = true) : joinCell cell cells = cell :: cells := by
  cases cells with
  | nil => rfl
  | cons next rest => exact if_neg (by simp [hused])

/-- Joining a free block to a free block is joining both at once. -/
theorem joinCell_joinCell
    {next : Cell} (hcell : cell.used = false) (hnext : next.used = false)
    (cells : List Cell) :
    joinCell cell (joinCell next cells) =
      joinCell ⟨cell.size + next.span, false⟩ cells := by
  cases cells with
  | nil => simp [joinCell, hcell, hnext]
  | cons last rest =>
      by_cases hlast : last.used = false
      · simp [joinCell, hcell, hnext, hlast, Cell.span, Nat.add_assoc]
      · simp [joinCell, hcell, hnext, hlast]

theorem coalesce_joinCell (cell : Cell) (cells back : List Cell) :
    coalesce (joinCell cell cells ++ back) =
      joinCell cell (coalesce (cells ++ back)) := by
  cases cells with
  | nil => rfl
  | cons next rest =>
      by_cases hfree : cell.used = false ∧ next.used = false
      · have hjoined : joinCell cell (next :: rest) =
            ⟨cell.size + next.span, false⟩ :: rest := if_pos hfree
        rw [hjoined, List.cons_append, List.cons_append, coalesce_cons,
          coalesce_cons, joinCell_joinCell hfree.1 hfree.2]
      · have happart : joinCell cell (next :: rest) = cell :: next :: rest :=
          if_neg hfree
        rw [happart, List.cons_append, coalesce_cons]

theorem coalesce_coalesce_append (front back : List Cell) :
    coalesce (coalesce front ++ back) = coalesce (front ++ back) := by
  induction front with
  | nil => rfl
  | cons cell front ih =>
      rw [coalesce_cons, coalesce_joinCell, ih, List.cons_append, coalesce_cons]

theorem coalesce_append_coalesce (front back : List Cell) :
    coalesce (front ++ coalesce back) = coalesce (front ++ back) := by
  induction front with
  | nil =>
      have hwhole := coalesce_coalesce_append back []
      rwa [List.append_nil, List.append_nil] at hwhole
  | cons cell front ih =>
      rw [List.cons_append, coalesce_cons, ih, List.cons_append, coalesce_cons]

/-- A layout without free neighbours is in normal form. -/
theorem coalesce_eq_self (h : Separated cells) : coalesce cells = cells := by
  induction cells with
  | nil => rfl
  | cons cell rest ih =>
      rw [coalesce_cons, ih h.tail]
      cases rest with
      | nil => rfl
      | cons next rest =>
          have hpair := (List.isChain_cons_cons.1 h).1
          exact if_neg (by rintro ⟨hcell, hnext⟩; simp [hcell, hnext] at hpair)

/-- A used block keeps what is in front of it apart from what is behind. -/
theorem coalesce_used (hused : cell.used = true) (front back : List Cell) :
    coalesce (front ++ [cell] ++ back) =
      coalesce front ++ [cell] ++ coalesce back := by
  induction front with
  | nil =>
      rw [List.nil_append, List.singleton_append, coalesce_cons,
        joinCell_used hused, coalesce_nil, List.nil_append,
        List.singleton_append]
  | cons first front ih =>
      rw [List.cons_append, List.cons_append, coalesce_cons, ih, coalesce_cons]
      cases hfront : coalesce front with
      | nil => simp [joinCell, hused]
      | cons next rest =>
          rw [List.append_assoc, List.append_assoc,
            joinCell_append _ _ (List.cons_ne_nil _ _)]

/-- Free blocks in a row are joined to one. -/
theorem coalesce_free
    (hne : cells ≠ []) (hfree : ∀ cell ∈ cells, cell.used = false) :
    coalesce cells = [⟨extent cells - headerSize, false⟩] := by
  induction cells with
  | nil => exact absurd rfl hne
  | cons cell rest ih =>
      have hcell := hfree cell (List.mem_cons_self ..)
      rw [coalesce_cons]
      cases rest with
      | nil =>
          obtain ⟨size, used⟩ := cell
          simp only at hcell
          subst hcell
          simp [joinCell, Cell.span]
      | cons next rest =>
          rw [ih (List.cons_ne_nil _ _)
            fun other hmem => hfree other (List.mem_cons_of_mem _ hmem)]
          simp only [joinCell, hcell, and_self, if_true, extent_cons,
            List.cons.injEq, Cell.mk.injEq, and_true, Cell.span]
          omega

/-- Free blocks in a row count by their extent alone. -/
theorem coalesce_free_congr
    (hne : middle ≠ []) (hfree : ∀ cell ∈ middle, cell.used = false)
    (hne' : middle' ≠ []) (hfree' : ∀ cell ∈ middle', cell.used = false)
    (hextent : extent middle = extent middle') (front back : List Cell) :
    coalesce (front ++ middle ++ back) = coalesce (front ++ middle' ++ back) := by
  have hsame : coalesce middle = coalesce middle' := by
    rw [coalesce_free hne hfree, coalesce_free hne' hfree', hextent]
  calc coalesce (front ++ middle ++ back)
      = coalesce (front ++ coalesce (coalesce middle ++ back)) := by
        rw [coalesce_coalesce_append, coalesce_append_coalesce,
          List.append_assoc]
    _ = coalesce (front ++ coalesce (coalesce middle' ++ back)) := by
        rw [hsame]
    _ = coalesce (front ++ middle' ++ back) := by
        rw [coalesce_coalesce_append, coalesce_append_coalesce,
          List.append_assoc]

end

/-! ## The block list -/

/-- The layout `cells` is the block list of a heap: the addresses, sizes, flags
and links of all its blocks. -/
structure BlockList (s : State) (cells : List Cell) : Prop where
  head : s.heapHead = linkTo kernelMalloc cells 0
  blocks : Represents s.mem 0 0 kernelMalloc cells

theorem Represents.unique
    {mem : ByteStore} {prev address : ℕ} {cells cells' : List Cell}
    (h : Represents mem 0 prev address cells)
    (h' : Represents mem 0 prev address cells') (haddress : 0 < address)
    (hlink : linkTo address cells 0 = linkTo address cells' 0) :
    cells = cells' := by
  induction cells generalizing prev address cells' with
  | nil =>
      cases cells' with
      | nil => rfl
      | cons cell rest =>
          simp only [linkTo_nil, linkTo_cons] at hlink
          omega
  | cons cell rest ih =>
      cases cells' with
      | nil =>
          simp only [linkTo_nil, linkTo_cons] at hlink
          omega
      | cons cell' rest' =>
          have hheader := h.1.symm.trans h'.1
          simp only [Header.mk.injEq, true_and, and_true] at hheader
          obtain ⟨hsize, hused, hnext⟩ := hheader
          have hcell : cell = cell' := by
            cases cell
            cases cell'
            simp only at hsize hused
            rw [hsize, hused]
          subst hcell
          rw [ih h.2 h'.2 (by omega) hnext]

theorem BlockList.unique
    {s : State} {cells cells' : List Cell} (h : BlockList s cells)
    (h' : BlockList s cells') : cells = cells' :=
  h.blocks.unique h'.blocks (by norm_num [kernelMalloc])
    (h.head.symm.trans h'.head)

theorem Inv.blockList
    {s : State} {cells : List Cell} (h : Inv s cells) : BlockList s cells := by
  refine ⟨?_, h.represents⟩
  rw [h.head]
  cases cells with
  | nil => exact absurd rfl h.nonempty
  | cons cell rest => rfl

/-! ## Freeing -/

/-- `kfree` of a used block marks it and joins free neighbours. -/
theorem kfree_coalesce
    {s : State} {front back : List Cell} {cell : Cell}
    (h : Inv s (front ++ [cell] ++ back))
    (hused : cell.used = true) (hpositive : 0 < cell.size) :
    ∃ next, kfree (kernelMalloc + extent front + headerSize) s = .ok next ∧
      Inv next (coalesce (front ++ [⟨cell.size, false⟩] ++ back)) := by
  obtain ⟨next, lead, before, after, tail, merged, hcall, rfl, rfl, hbefore,
    hafter, hmerged, hspan, hnext⟩ := kfree_spec h hused hpositive
  refine ⟨next, hcall, ?_⟩
  have hfree : ∀ other ∈ before ++ [⟨cell.size, false⟩] ++ after,
      other.used = false := by
    intro other hmem
    simp only [List.mem_append, List.mem_singleton] at hmem
    rcases hmem with (hmem | rfl) | hmem
    · exact hbefore other hmem
    · rfl
    · exact hafter other hmem
  have hextent : extent (before ++ [⟨cell.size, false⟩] ++ after) =
      extent [merged] := by
    rw [extent_cons, extent_nil, Nat.add_zero, hspan]
    simp only [extent_append, extent_cons, Cell.span]
  have hsame := coalesce_free_congr (by simp) hfree (by simp)
    (by simpa using hmerged) hextent lead tail
  rw [coalesce_eq_self hnext.separated] at hsame
  have hwhole : lead ++ before ++ [⟨cell.size, false⟩] ++ (after ++ tail) =
      lead ++ (before ++ [⟨cell.size, false⟩] ++ after) ++ tail := by
    simp
  rw [hwhole, hsame]
  exact hnext

/-- Freeing two blocks of a layout, the front one first or last. -/
theorem kfree_two
    {s : State} {front middle back : List Cell} {cell cell' : Cell}
    (h : Inv s (front ++ [cell] ++ middle ++ [cell'] ++ back))
    (hused : cell.used = true) (hpositive : 0 < cell.size)
    (hused' : cell'.used = true) (hpositive' : 0 < cell'.size) :
    ∃ mid mid' last last',
      kfree (kernelMalloc + extent front + headerSize) s = .ok mid ∧
      kfree (kernelMalloc + extent (front ++ [cell] ++ middle) + headerSize)
        mid = .ok last ∧
      kfree (kernelMalloc + extent (front ++ [cell] ++ middle) + headerSize)
        s = .ok mid' ∧
      kfree (kernelMalloc + extent front + headerSize) mid' = .ok last' ∧
      Inv last (coalesce (front ++ [⟨cell.size, false⟩] ++ middle ++
        [⟨cell'.size, false⟩] ++ back)) ∧
      Inv last' (coalesce (front ++ [⟨cell.size, false⟩] ++ middle ++
        [⟨cell'.size, false⟩] ++ back)) := by
  have hfirst : Inv s (front ++ [cell] ++ (middle ++ [cell'] ++ back)) := by
    simpa using h
  obtain ⟨mid, hmid, hmidInv⟩ := kfree_coalesce hfirst hused hpositive
  obtain ⟨mid', hmid', hmidInv'⟩ := kfree_coalesce h hused' hpositive'
  have hsplit : coalesce (front ++ [⟨cell.size, false⟩] ++
      (middle ++ [cell'] ++ back)) =
        coalesce (front ++ [⟨cell.size, false⟩] ++ middle) ++ [cell'] ++
          coalesce back := by
    rw [← coalesce_used hused']
    simp
  have hsplit' : coalesce (front ++ [cell] ++ middle ++
      [⟨cell'.size, false⟩] ++ back) =
        coalesce front ++ [cell] ++
          coalesce (middle ++ [⟨cell'.size, false⟩] ++ back) := by
    rw [← coalesce_used hused]
    simp
  rw [hsplit] at hmidInv
  rw [hsplit'] at hmidInv'
  obtain ⟨last, hlast, hlastInv⟩ := kfree_coalesce hmidInv hused' hpositive'
  obtain ⟨last', hlast', hlastInv'⟩ := kfree_coalesce hmidInv' hused hpositive
  have hplace : extent (coalesce (front ++ [⟨cell.size, false⟩] ++ middle)) =
      extent (front ++ [cell] ++ middle) := by
    simp [Cell.span]
  rw [hplace] at hlast
  rw [extent_coalesce] at hlast'
  refine ⟨mid, mid', last, last', hmid, hlast, hmid', hlast', ?_, ?_⟩
  · rwa [coalesce_append_coalesce, List.append_assoc,
      coalesce_coalesce_append, ← List.append_assoc] at hlastInv
  · rw [coalesce_append_coalesce, List.append_assoc,
      coalesce_coalesce_append] at hlastInv'
    simpa using hlastInv'

/-- Two used blocks of a layout, in order. -/
theorem mem_locate_two
    {address block block' : ℕ} {cell cell' : Cell} {cells : List Cell}
    (hmem : (block, cell) ∈ locate address cells)
    (hmem' : (block', cell') ∈ locate address cells) (hlt : block < block') :
    ∃ front middle back, cells = front ++ [cell] ++ middle ++ [cell'] ++ back ∧
      block = address + extent front ∧
      block' = address + extent (front ++ [cell] ++ middle) := by
  obtain ⟨front', back, rfl, rfl⟩ := mem_locate_iff.1 hmem'
  simp only [locate_append, List.mem_append] at hmem
  rcases hmem with (hmem | hmem) | hmem
  · obtain ⟨front, middle, rfl, rfl⟩ := mem_locate_iff.1 hmem
    exact ⟨front, middle, back, rfl, rfl, rfl⟩
  · simp only [locate, List.mem_singleton, Prod.mk.injEq] at hmem
    omega
  · have hbounds := mem_locate_bounds hmem
    simp only [extent_append] at hbounds
    omega

/-- `kfree` of one pointer after another. -/
def freeAll (order : List ℕ) (s : State) : Outcome State :=
  order.foldlM (fun s ptr => kfree ptr s) s

theorem freeAll_cons
    {s mid : State} {ptr : ℕ} (hcall : kfree ptr s = .ok mid)
    (order : List ℕ) : freeAll (ptr :: order) s = freeAll order mid := by
  unfold freeAll
  rw [List.foldlM_cons, hcall]
  rfl

/-- Two heaps have the same block list. -/
def SameBlocks (s t : State) : Prop :=
  ∃ cells, BlockList s cells ∧ BlockList t cells

theorem SameBlocks.symm {s t : State} (h : SameBlocks s t) : SameBlocks t s := by
  obtain ⟨cells, hs, ht⟩ := h
  exact ⟨cells, ht, hs⟩

/-- Two live pointers may be freed in either order. -/
theorem Client.Good.free_two
    {client : Client} (hgood : client.Good) {p q n m : ℕ}
    (hp : (p, n) ∈ client.live) (hq : (q, m) ∈ client.live) (hlt : p < q) :
    ∃ s t, freeAll [p, q] client.heap = .ok s ∧
      freeAll [q, p] client.heap = .ok t ∧ SameBlocks s t := by
  obtain ⟨cells, hinv, hlive⟩ := hgood
  obtain ⟨block, cell, rfl, hmem, hused, -, hpositive, -⟩ :=
    hlive.located hinv hp
  obtain ⟨block', cell', rfl, hmem', hused', -, hpositive', -⟩ :=
    hlive.located hinv hq
  obtain ⟨front, middle, back, rfl, rfl, rfl⟩ :=
    mem_locate_two hmem hmem' (by omega)
  obtain ⟨mid, mid', last, last', hmid, hlast, hmid', hlast', hinvLast,
    hinvLast'⟩ := kfree_two hinv hused hpositive hused' hpositive'
  refine ⟨last, last', ?_, ?_, _, hinvLast.blockList, hinvLast'.blockList⟩
  · rw [freeAll_cons hmid, freeAll_cons hlast]
    rfl
  · rw [freeAll_cons hmid', freeAll_cons hlast']
    rfl

/-! ## Freeing everything -/

/-- Every used block belongs to a live pointer. -/
def Client.Exact (client : Client) : Prop :=
  ∀ cells, Inv client.heap cells →
    ∀ block cell, (block, cell) ∈ locate kernelMalloc cells →
      cell.used = true → ∃ size, (block + headerSize, size) ∈ client.live

theorem Inv.unique
    {s : State} {cells cells' : List Cell} (h : Inv s cells)
    (h' : Inv s cells') : cells = cells' :=
  h.blockList.unique h'.blockList

theorem Inv.kfree_null
    {s : State} {cells : List Cell} (h : Inv s cells) :
    Heap.kfree 0 s = .ok s := by
  unfold Heap.kfree
  rw [h.kmallocInit_eq]
  rfl

theorem Inv.kfree_heapSize
    {s next : State} {cells : List Cell} {ptr : ℕ} (h : Inv s cells)
    (hcall : Heap.kfree ptr s = .ok next) : next.heapSize = s.heapSize := by
  unfold Heap.kfree at hcall
  rw [h.kmallocInit_eq] at hcall
  simp only [bind, Except.bind] at hcall
  split_ifs at hcall <;> cases hcall <;> rfl

theorem Client.Exact.kmalloc
    {client : Client} {next : State} {size ptr : ℕ}
    (hexact : client.Exact) (hgood : client.Good) (hsize : size < 0x40000000)
    (hcall : Heap.kmalloc size client.heap = .ok (ptr, next)) :
    Client.Exact ⟨next, if ptr = 0 then client.live
      else (ptr, size) :: client.live⟩ := by
  obtain ⟨cells, hinv, -⟩ := hgood
  rcases Nat.eq_zero_or_pos size with rfl | hpositive
  · have hsame : (0, client.heap) = (ptr, next) := by
      unfold Heap.kmalloc at hcall
      rw [hinv.kmallocInit_eq] at hcall
      exact Except.ok.inj hcall
    cases hsame
    simpa using hexact
  · obtain ⟨front, old, back, room, rest, rfl, -, hrest, -, rfl, hextent,
      hnext⟩ := kmalloc_spec hinv hpositive hsize hcall
    rw [if_neg (by norm_num [kernelMalloc])]
    intro cells' hinv' block cell hmem hused
    rw [hinv'.unique hnext] at hmem
    by_cases hnew : (block, cell) ∈
        locate (kernelMalloc + extent front) (⟨room, true⟩ :: rest)
    · simp only [locate, List.mem_cons, Prod.mk.injEq] at hnew
      rcases hnew with ⟨rfl, -⟩ | hnew
      · exact ⟨size, List.mem_cons_self ..⟩
      · exact absurd hnew (not_mem_locate_of_free hrest hused)
    · have hback := mem_locate_replace hmem hnew
        (hextent.imp id Eq.symm)
      obtain ⟨n, hlive⟩ := hexact _ hinv block cell hback hused
      exact ⟨n, List.mem_cons_of_mem _ hlive⟩

theorem Client.Exact.kfree
    {client : Client} {next : State} {ptr size : ℕ}
    (hexact : client.Exact) (hgood : client.Good)
    (hptr : (ptr, size) ∈ client.live)
    (hcall : Heap.kfree ptr client.heap = .ok next) :
    Client.Exact ⟨next,
      client.live.filter fun entry => entry.1 ≠ ptr⟩ := by
  obtain ⟨cells, hinv, hlive⟩ := hgood
  obtain ⟨place, freed, rfl, hmem, hused, -, hpositive, -⟩ :=
    hlive.located hinv hptr
  obtain ⟨front, back, rfl, rfl⟩ := mem_locate_iff.1 hmem
  obtain ⟨next', lead, before, after, tail, merged, hfree, rfl, rfl, -, -,
    hmerged, hspan, hnext⟩ := kfree_spec hinv hused hpositive
  rw [hfree] at hcall
  cases hcall
  intro cells' hinv' block cell hblock hcell
  rw [hinv'.unique hnext] at hblock
  have hother : (block, cell) ∉
      locate (kernelMalloc + extent lead) [merged] :=
    not_mem_locate_of_free (by simpa using hmerged) hcell
  have hextent : extent (before ++ [freed] ++ after) = extent [merged] := by
    rw [← hspan]
    simp
  have hold := mem_locate_replace hblock hother (.inr hextent)
  have hthere : (block, cell) ∈ locate kernelMalloc
      (lead ++ before ++ [freed] ++ (after ++ tail)) := by
    simpa using hold
  obtain ⟨n, hn⟩ := hexact _ hinv block cell hthere hcell
  refine ⟨n, List.mem_filter.2 ⟨hn, ?_⟩⟩
  simp only [ne_eq, decide_eq_true_eq]
  intro hsame
  have hblockEq : block = kernelMalloc + extent (lead ++ before) := by omega
  rcases locate_apart hblock (mem_locate_iff.2 ⟨lead, tail, rfl, rfl⟩) with
    ⟨-, rfl⟩ | hfront | hback
  · rw [hcell] at hmerged
    cases hmerged
  · have hcellSpan := headerSize_le_span cell
    simp only [extent_append] at hblockEq
    simp only [headerSize] at hcellSpan
    omega
  · have hfreedSpan := headerSize_le_span freed
    simp only [extent_append, extent_cons, extent_nil] at hspan hblockEq
    simp only [headerSize] at hfreedSpan
    omega

theorem Client.Reachable.exact {client : Client}
    (hreach : client.Reachable) : client.Exact := by
  induction hreach with
  | boot hfresh hinit =>
      intro cells hinv block cell hmem hused
      rw [hinv.unique (kmallocInit_spec hfresh hinit)] at hmem
      simp only [locate, List.mem_singleton, Prod.mk.injEq] at hmem
      rw [hmem.2] at hused
      cases hused
  | @step client next request hprev hallowed hserve hexact =>
      cases request with
      | kmalloc size =>
          obtain ⟨⟨ptr, heap⟩, hcall, hnext⟩ := Outcome.bind_eq_ok.mp hserve
          cases hnext
          exact hexact.kmalloc hprev.good hallowed hcall
      | kfree ptr =>
          obtain ⟨heap, hcall, hnext⟩ := Outcome.bind_eq_ok.mp hserve
          cases hnext
          rcases hallowed with rfl | ⟨size, hptr⟩
          · obtain ⟨cells, hinv, -⟩ := hprev.good
            rw [hinv.kfree_null] at hcall
            cases hcall
            intro cells' hinv' block cell hmem hused
            obtain ⟨n, hn⟩ := hexact cells' hinv' block cell hmem hused
            refine ⟨n, List.mem_filter.2 ⟨hn, ?_⟩⟩
            simp [headerSize]
          · exact hexact.kfree hprev.good hptr hcall
      | store address byte =>
          cases hserve
          obtain ⟨cells, hinv, hlive⟩ := hprev.good
          intro cells' hinv' block cell hmem hused
          rw [hinv'.unique (hinv.store hlive hallowed)] at hmem
          exact hexact cells hinv block cell hmem hused

theorem Client.Reachable.empty
    {client : Client} (hreach : client.Reachable) (hnone : client.live = []) :
    BlockList client.heap
      [⟨client.heap.heapSize - headerSize, false⟩] := by
  obtain ⟨cells, hinv, -⟩ := hreach.good
  have hfree : ∀ cell ∈ cells, cell.used = false := by
    intro cell hmem
    obtain ⟨front, back, hsplit⟩ := List.append_of_mem hmem
    have hlocated : (kernelMalloc + extent front, cell) ∈
        locate kernelMalloc cells :=
      mem_locate_iff.2 ⟨front, back, by simp [hsplit], rfl⟩
    by_contra hused
    obtain ⟨size, hsize⟩ := hreach.exact cells hinv _ cell hlocated
      (by simpa using hused)
    rw [hnone] at hsize
    exact List.not_mem_nil hsize
  have hone := coalesce_free hinv.nonempty hfree
  rw [coalesce_eq_self hinv.separated, hinv.extent_eq] at hone
  rw [← hone]
  exact hinv.blockList

/-- Freeing the live pointers in any order leaves nothing live. -/
theorem Client.Reachable.freeAll
    {client : Client} (hreach : client.Reachable) {order : List ℕ}
    (horder : order.Perm (client.live.map Prod.fst)) :
    ∃ next : Client, Heap.freeAll order client.heap = .ok next.heap ∧
      next.Reachable ∧ next.live = [] ∧
      next.heap.heapSize = client.heap.heapSize := by
  induction order generalizing client with
  | nil =>
      have hnone := List.map_eq_nil_iff.1 horder.symm.eq_nil
      exact ⟨client, rfl, hreach, hnone, rfl⟩
  | cons ptr order ih =>
      obtain ⟨⟨ptr', size⟩, hlive, rfl⟩ := List.mem_map.1
        (horder.subset (List.mem_cons_self ..))
      obtain ⟨heap, hcall, -⟩ := hreach.good.kfree hlive
      have hserve : client.serve (.kfree ptr') = .ok ⟨heap,
          client.live.filter fun entry => entry.1 ≠ ptr'⟩ := by
        simp [Client.serve, hcall, bind, Except.bind, pure, Except.pure]
      have hallowed : client.Allows (.kfree ptr') := .inr ⟨size, hlive⟩
      have hnext := hreach.step hallowed hserve
      have hnodup : (client.live.map Prod.fst).Nodup :=
        List.pairwise_map.2 hreach.distinct
      have hrest : order.Perm ((client.live.filter fun entry =>
          entry.1 ≠ ptr').map Prod.fst) := by
        have herase := (horder.erase ptr').trans
          (List.Perm.of_eq (hnodup.erase_eq_filter ptr'))
        rw [List.erase_cons_head] at herase
        refine herase.trans (List.Perm.of_eq ?_)
        rw [List.filter_map]
        congr 1
        refine List.filter_congr fun entry _ => ?_
        simp [bne, BEq.beq]
      obtain ⟨next, hfreed, hreached, hnone, hsize⟩ := ih hnext hrest
      obtain ⟨cells, hinv, -⟩ := hreach.good
      refine ⟨next, ?_, hreached, hnone, hsize.trans (hinv.kfree_heapSize hcall)⟩
      rw [freeAll_cons hcall]
      exact hfreed

/-- A layout whose free space at the end is longer. -/
def lengthen (growth : ℕ) (cells : List Cell) : List Cell :=
  if growth = 0 then cells
  else
    match cells.getLast? with
    | none => [⟨growth - headerSize, false⟩]
    | some last =>
        if last.used then cells ++ [⟨growth - headerSize, false⟩]
        else cells.dropLast ++ [⟨last.size + growth, false⟩]

theorem lengthen_eq_coalesce
    {cells : List Cell} {growth : ℕ} (h : Separated cells)
    (hgrowth : headerSize ≤ growth) :
    lengthen growth cells =
      coalesce (cells ++ [⟨growth - headerSize, false⟩]) := by
  have hpositive : growth ≠ 0 := by
    have hheader : headerSize = 17 := rfl
    omega
  unfold lengthen
  rw [if_neg hpositive]
  rcases List.eq_nil_or_concat cells with rfl | ⟨front, last, rfl⟩
  · simp [joinCell]
  · rw [List.concat_eq_append] at *
    have hfront : Separated front := h.left_of_append
    simp only [List.getLast?_append, List.getLast?_singleton, Option.some_or]
    by_cases hused : last.used = true
    · rw [if_pos hused, coalesce_used hused, coalesce_eq_self hfront]
      rfl
    · have hfree : last.used = false := by simpa using hused
      have hjoined : Separated (front ++ [⟨last.size + growth, false⟩] ++ []) := by
        have hwhole : Separated (front ++ [last] ++ []) := by simpa using h
        rw [separated_middle (by simp)] at hwhole ⊢
        refine ⟨hwhole.1, by simp [Separated], by simp [Separated], ?_, by simp⟩
        intro x hx y hy
        simp only [List.head?_cons, Option.mem_some_iff] at hy
        rcases hwhole.2.2.2.1 x hx last (by simp) with hxused | hlast
        · exact .inl hxused
        · rw [hfree] at hlast
          cases hlast
      have hcongr : coalesce (front ++ [⟨last.size + growth, false⟩] ++ []) =
          coalesce (front ++ [last, ⟨growth - headerSize, false⟩] ++ []) := by
        refine coalesce_free_congr (by simp) (by simp) (by simp)
          (by simp [hfree]) ?_ front []
        simp only [extent_cons, extent_nil, Cell.span]
        omega
      rw [coalesce_eq_self hjoined] at hcongr
      rw [if_neg hused, List.dropLast_concat]
      simpa using hcongr

/-- The heap never shrinks. -/
theorem kmalloc_heapSize_le
    {s next : State} {cells : List Cell} {size ptr : ℕ}
    (h : Inv s cells) (hpositive : 0 < size) (hsize : size < 0x40000000)
    (hcall : kmalloc size s = .ok (ptr, next)) :
    s.heapSize ≤ next.heapSize := by
  obtain ⟨rounded, -, hhigh, hcases⟩ := kmalloc_cases h hpositive hsize hcall
  rcases hcases with
    ⟨front, cell, back, -, -, -, -, rfl⟩ | ⟨front, last, rfl, hunfit, hgrow⟩
  · exact le_rfl
  · obtain ⟨grown, vm, front', cell, joined, -, -, -, -, -, -, -, -, -, -, -, -,
      rfl⟩ := growAndTake_eq h hhigh hunfit hgrow
    exact Nat.le_add_right _ _

end ClOs.Heap
