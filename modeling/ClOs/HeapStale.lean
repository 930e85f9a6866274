import ClOs.HeapOrder

/-!
# Headers of freed blocks

A freed block may be absorbed by a neighbour, and its header then lies inside a
free block.  No later call of `kfree` and no client writes there, so the header
keeps saying that its block is not used, and a second `kfree` does nothing.
-/

namespace ClOs.Heap

open Memory

/-- The header at an address is the one of a free block or lies inside a free
block. -/
def Covered (cells : List Cell) (header : ℕ) : Prop :=
  ∃ block cell, (block, cell) ∈ locate kernelMalloc cells ∧
    cell.used = false ∧
    (header = block ∨
      block + headerSize ≤ header ∧ header + headerSize ≤ block + cell.span)

theorem Covered.inside
    {cells : List Cell} {header : ℕ} (h : Covered cells header) :
    ∃ block cell, (block, cell) ∈ locate kernelMalloc cells ∧
      cell.used = false ∧ block ≤ header ∧
        header + headerSize ≤ block + cell.span := by
  obtain ⟨block, cell, hmem, hfree, hplace⟩ := h
  have hspan := headerSize_le_span cell
  exact ⟨block, cell, hmem, hfree, by omega, by omega⟩

/-- The flag of a covered header lies in no header whose links change. -/
theorem Covered.spared
    {cells : List Cell} {header : ℕ} (h : Covered cells header) :
    SparedBy kernelMalloc cells (header + 8) := by
  obtain ⟨block, cell, hmem, -, hplace⟩ := h
  rintro ⟨other, cell'⟩ hother
  have hspan := headerSize_le_span cell
  have hspan' := headerSize_le_span cell'
  simp only [headerSize] at *
  rcases locate_apart hmem hother with ⟨rfl, -⟩ | hbefore | hafter <;> omega

/-- Used blocks may be freed and free neighbours joined: what was covered stays
so. -/
theorem Covered.replace
    {front old new back : List Cell} {header : ℕ} {cell : Cell}
    (h : Covered (front ++ old ++ back) header)
    (hnew : (kernelMalloc + extent front, cell) ∈
      locate (kernelMalloc + extent front) new)
    (hfree : cell.used = false) (hspan : cell.span = extent old)
    (hextent : extent new = extent old) :
    Covered (front ++ new ++ back) header := by
  obtain ⟨block, other, hmem, hother, hplace⟩ := h
  by_cases hinside : (block, other) ∈ locate (kernelMalloc + extent front) old
  · have hbounds := mem_locate_bounds hinside
    refine ⟨kernelMalloc + extent front, cell, ?_, hfree, ?_⟩
    · simp only [locate_append, List.mem_append]
      exact .inl (.inr hnew)
    · have hheads : block = kernelMalloc + extent front ∨
          kernelMalloc + extent front + headerSize ≤ block := by
        cases old with
        | nil => cases hinside
        | cons first rest =>
            simp only [locate, List.mem_cons, Prod.mk.injEq] at hinside
            rcases hinside with ⟨rfl, -⟩ | hinside
            · exact .inl rfl
            · have hrest := (mem_locate_bounds hinside).1
              have hfirst := headerSize_le_span first
              exact .inr (by omega)
      have hotherSpan := headerSize_le_span other
      omega
  · exact ⟨block, other, mem_locate_replace hmem hinside (.inr hextent),
      hother, hplace⟩

def Freed (s : State) (header : ℕ) : Prop :=
  ∃ cells, Inv s cells ∧ Covered cells header ∧ usedOf s.mem header = false

theorem Freed.kfree_eq
    {s : State} {header : ℕ} (h : Freed s header) :
    kfree (header + headerSize) s = .ok s := by
  obtain ⟨cells, hinv, hcovered, hflag⟩ := h
  obtain ⟨block, cell, hmem, -, hlow, hhigh⟩ := hcovered.inside
  have hbounds := mem_locate_bounds hmem
  have hlimit := hinv.limit
  have hblock : sub32 (header + headerSize) headerSize = header := by
    rw [sub32_of_le (by omega) (by omega)]
    omega
  unfold kfree
  rw [hinv.kmallocInit_eq]
  simp only [bind, Except.bind, hblock, hflag, if_true]
  split_ifs <;> rfl

/-- A free call leaves the headers of freed blocks free and adds its own. -/
theorem kfree_freed
    {s next : State} {front back : List Cell} {cell : Cell} {header : ℕ}
    (h : Inv s (front ++ [cell] ++ back))
    (hused : cell.used = true) (hpositive : 0 < cell.size)
    (hcall : kfree (kernelMalloc + extent front + headerSize) s = .ok next)
    (hheader : header = kernelMalloc + extent front ∨ Freed s header) :
    Freed next header := by
  have hmarked : Covered (front ++ [⟨cell.size, false⟩] ++ back) header := by
    rcases hheader with rfl | ⟨cells, hinv, hcovered, -⟩
    · exact ⟨_, _, mem_locate_iff.2 ⟨front, back, rfl, rfl⟩, rfl, .inl rfl⟩
    · rw [hinv.unique h] at hcovered
      exact hcovered.replace (List.mem_singleton_self _) rfl
        (by simp [Cell.span]) (by simp [Cell.span])
  have hflag : (setUsed (kernelMalloc + extent front) false s.mem)
      (header + 8) = 0 := by
    by_cases hsame : header = kernelMalloc + extent front
    · rw [hsame]
      exact ByteStore.put8_same _ _ _
    · obtain ⟨cells, -, -, hold⟩ := hheader.resolve_left hsame
      have hbyte : s.mem (header + 8) = 0 := by
        unfold usedOf at hold
        simpa using hold
      rw [← hbyte]
      exact ByteStore.put8_apply_of_ne _ (by omega)
  obtain ⟨next', lead, before, after, tail, merged, hcall', rfl, rfl, hbefore,
    hafter, hmerged, hspan, hinv⟩ := kfree_spec h hused hpositive
  rw [hcall'] at hcall
  cases hcall
  refine ⟨_, hinv, ?_, ?_⟩
  · have hwhole : Covered (lead ++ (before ++ [⟨cell.size, false⟩] ++ after) ++
        tail) header := by
      simpa using hmarked
    have hextent : merged.span =
        extent (before ++ [⟨cell.size, false⟩] ++ after) := by
      rw [hspan]
      simp [Cell.span]
    exact hwhole.replace (List.mem_singleton_self _) hmerged hextent
      (by rw [extent_cons, extent_nil, Nat.add_zero, hextent])
  · unfold usedOf
    rw [kfree_spared h hused hpositive hcall' hmarked.spared, hflag]
    rfl

theorem Freed.store
    {client : Client} {header address : ℕ} {byte : UInt8}
    (h : Freed client.heap header) (hgood : client.Good)
    (hallowed : client.Allows (.store address byte)) :
    Freed { client.heap with
      mem := Function.update client.heap.mem address byte } header := by
  obtain ⟨cells, hinv, hcovered, hflag⟩ := h
  obtain ⟨cells', hinv', hlive⟩ := hgood
  rw [hinv'.unique hinv] at hlive
  refine ⟨cells, hinv.store hlive hallowed, hcovered, ?_⟩
  obtain ⟨ptr, size, hptr, hlow, hhigh⟩ := hallowed
  obtain ⟨place, own, rfl, hown, hused, -, -, hsize⟩ := hlive.located hinv hptr
  unfold payloadSize at hsize
  rw [hsize] at hhigh
  obtain ⟨block, cell, hmem, hfree, hinside⟩ := hcovered.inside
  have hne : header + 8 ≠ address := by
    simp only [Cell.span, headerSize] at *
    rcases locate_apart hmem hown with ⟨-, rfl⟩ | hbefore | hafter
    · rw [hused] at hfree
      cases hfree
    · simp only [Cell.span, headerSize] at hbefore
      omega
    · simp only [Cell.span, headerSize] at hafter
      omega
  have hbyte : Function.update client.heap.mem address byte (header + 8) =
      client.heap.mem (header + 8) := Function.update_of_ne hne _ _
  unfold usedOf at hflag ⊢
  simp only [hbyte]
  exact hflag

/-! ## Histories without allocations -/

def Client.history (client : Client) (requests : List Request) :
    Outcome Client :=
  requests.foldlM Client.serve client

/-- Every request of a history is allowed when it is made. -/
def Client.AllowsAll : Client → List Request → Prop
  | _, [] => True
  | client, request :: rest =>
      client.Allows request ∧
        ∀ next, client.serve request = .ok next → next.AllowsAll rest

/-- `NULL`, or a pointer whose block is freed. -/
def Done (s : State) (ptr : ℕ) : Prop :=
  ptr = 0 ∨ ∃ header, ptr = header + headerSize ∧ Freed s header

theorem Done.kfree_eq
    {client : Client} {ptr : ℕ} (h : Done client.heap ptr)
    (hgood : client.Good) : kfree ptr client.heap = .ok client.heap := by
  rcases h with rfl | ⟨header, rfl, hfreed⟩
  · obtain ⟨cells, hinv, -⟩ := hgood
    exact hinv.kfree_null
  · exact hfreed.kfree_eq

/-- A request that allocates nothing. -/
theorem Client.Reachable.serve_done
    {client : Client} {request : Request} (hreach : client.Reachable)
    (hallowed : client.Allows request)
    (hfrees : ∀ size, request ≠ .kmalloc size) :
    ∃ next, client.serve request = .ok next ∧
      ∀ ptr, Done client.heap ptr ∨ request = .kfree ptr →
        Done next.heap ptr := by
  obtain ⟨cells, hinv, hlive⟩ := hreach.good
  cases request with
  | kmalloc size => exact absurd rfl (hfrees size)
  | store address byte =>
      refine ⟨_, rfl, ?_⟩
      rintro ptr ((rfl | ⟨header, rfl, hfreed⟩) | hsame)
      · exact .inl rfl
      · exact .inr ⟨header, rfl, hfreed.store ⟨cells, hinv, hlive⟩ hallowed⟩
      · cases hsame
  | kfree ptr =>
      rcases hallowed with rfl | ⟨size, hptr⟩
      · refine ⟨⟨client.heap, client.live.filter fun entry => entry.1 ≠ 0⟩,
          ?_, ?_⟩
        · simp [Client.serve, hinv.kfree_null, bind, Except.bind, pure,
            Except.pure]
        · rintro other (hdone | hsame)
          · exact hdone
          · cases hsame
            exact .inl rfl
      · obtain ⟨block, cell, rfl, hmem, hused, -, hpositive, -⟩ :=
          hlive.located hinv hptr
        obtain ⟨front, back, rfl, rfl⟩ := mem_locate_iff.1 hmem
        obtain ⟨heap, hcall, -⟩ := kfree_coalesce hinv hused hpositive
        refine ⟨⟨heap, client.live.filter fun entry =>
          entry.1 ≠ kernelMalloc + extent front + headerSize⟩, ?_, ?_⟩
        · simp [Client.serve, hcall, bind, Except.bind, pure, Except.pure]
        · rintro other ((rfl | ⟨header, rfl, hfreed⟩) | hsame)
          · exact .inl rfl
          · exact .inr ⟨header, rfl,
              kfree_freed hinv hused hpositive hcall (.inr hfreed)⟩
          · cases hsame
            exact .inr ⟨_, rfl,
              kfree_freed hinv hused hpositive hcall (.inl rfl)⟩

theorem Client.Reachable.history_done
    {client : Client} {requests : List Request} (hreach : client.Reachable)
    (hallowed : client.AllowsAll requests)
    (hfrees : ∀ request ∈ requests, ∀ size, request ≠ .kmalloc size) :
    ∃ last, client.history requests = .ok last ∧ last.Reachable ∧
      ∀ ptr, Done client.heap ptr ∨ .kfree ptr ∈ requests →
        Done last.heap ptr := by
  induction requests generalizing client with
  | nil =>
      exact ⟨client, rfl, hreach, fun ptr hptr =>
        hptr.resolve_right List.not_mem_nil⟩
  | cons request rest ih =>
      obtain ⟨hfirst, hrest⟩ := hallowed
      obtain ⟨next, hserve, hnext⟩ := hreach.serve_done hfirst
        (hfrees request (List.mem_cons_self ..))
      obtain ⟨last, hrun, hreached, hdone⟩ :=
        ih (hreach.step hfirst hserve) (hrest next hserve)
          fun other hmem => hfrees other (List.mem_cons_of_mem _ hmem)
      refine ⟨last, ?_, hreached, ?_⟩
      · unfold Client.history
        rw [List.foldlM_cons, hserve]
        exact hrun
      · intro ptr hptr
        apply hdone
        rcases hptr with hptr | hptr
        · exact .inl (hnext ptr (.inl hptr))
        · rcases List.mem_cons.1 hptr with rfl | hptr
          · exact .inl (hnext ptr (.inr rfl))
          · exact .inr hptr

end ClOs.Heap
