import ClOs.HeapCalls

/-!
# Histories of heap calls

A client allocates, frees live pointers and writes inside its payloads.  Every
heap it can reach is a well-formed doubly linked list that tiles the heap.
-/

namespace ClOs.Heap

open Memory

/-! ## Clients -/

inductive Request
  | kmalloc (size : ℕ)
  | kfree (ptr : ℕ)
  | store (address : ℕ) (byte : UInt8)

/-- The heap together with the live allocations: pointer and requested
size. -/
structure Client where
  heap : State
  live : List (ℕ × ℕ)

/-- What a request does.  `kmalloc(0)` and a failing call return `NULL`, which
is not a live pointer. -/
def Client.serve (client : Client) : Request → Outcome Client
  | .kmalloc size => do
      let (ptr, heap) ← kmalloc size client.heap
      return ⟨heap, if ptr = 0 then client.live
        else (ptr, size) :: client.live⟩
  | .kfree ptr => do
      let heap ← kfree ptr client.heap
      return ⟨heap, client.live.filter fun entry => entry.1 ≠ ptr⟩
  | .store address byte =>
      .ok { client with
        heap := { client.heap with
          mem := Function.update client.heap.mem address byte } }

/-- The requests a well-behaved client may make: sizes below `2^30`, frees of
`NULL` or of live pointers, and stores into payloads of live blocks. -/
def Client.Allows (client : Client) : Request → Prop
  | .kmalloc size => size < 0x40000000
  | .kfree ptr => ptr = 0 ∨ ∃ size, (ptr, size) ∈ client.live
  | .store address _ =>
      ∃ ptr size, (ptr, size) ∈ client.live ∧ ptr ≤ address ∧
        address < ptr + sizeOf client.heap.mem (ptr - headerSize)

/-- The clients that a history of allowed requests after `kmalloc_init` can
lead to.  Only calls that return are steps, so page frames have not run
out. -/
inductive Client.Reachable : Client → Prop
  | boot {s heap : State} :
      s.kmallocInitalized = false → kmallocInit s = .ok heap →
        Reachable ⟨heap, []⟩
  | step {client next : Client} {request : Request} :
      Reachable client → client.Allows request →
        client.serve request = .ok next → Reachable next

/-! ## Located blocks -/

/-- The blocks of a layout with their addresses. -/
def locate (address : ℕ) : List Cell → List (ℕ × Cell)
  | [] => []
  | cell :: cells => (address, cell) :: locate (address + cell.span) cells

theorem locate_append (address : ℕ) (front back : List Cell) :
    locate address (front ++ back) =
      locate address front ++ locate (address + extent front) back := by
  induction front generalizing address with
  | nil => simp [locate]
  | cons cell cells ih => simp [locate, ih, Nat.add_assoc]

theorem mem_locate_iff {address block : ℕ} {cell : Cell}
    {cells : List Cell} :
    (block, cell) ∈ locate address cells ↔
      ∃ front back, cells = front ++ [cell] ++ back ∧
        block = address + extent front := by
  constructor
  · intro hmem
    induction cells generalizing address with
    | nil => cases hmem
    | cons first cells ih =>
        simp only [locate, List.mem_cons, Prod.mk.injEq] at hmem
        rcases hmem with ⟨rfl, rfl⟩ | hmem
        · exact ⟨[], cells, by simp, by simp⟩
        · obtain ⟨front, back, rfl, hblock⟩ := ih hmem
          exact ⟨first :: front, back, by simp, by
            rw [extent_cons, hblock, Nat.add_assoc]⟩
  · rintro ⟨front, back, rfl, rfl⟩
    simp [locate_append, locate]

/-- A used block stays where it is when free blocks of the layout are replaced
by others of the same extent, or at the end of the layout. -/
theorem mem_locate_replace
    {address block : ℕ} {cell : Cell} {front old new back : List Cell}
    (hmem : (block, cell) ∈ locate address (front ++ old ++ back))
    (hold : (block, cell) ∉ locate (address + extent front) old)
    (hextent : back = [] ∨ extent new = extent old) :
    (block, cell) ∈ locate address (front ++ new ++ back) := by
  simp only [locate_append, List.mem_append, extent_append] at hmem ⊢
  rcases hmem with (hfront | hmid) | hback
  · exact .inl (.inl hfront)
  · exact absurd hmid hold
  · rcases hextent with rfl | hsame
    · cases hback
    · exact .inr (by rwa [hsame])

def LiveBlocks (live : List (ℕ × ℕ)) (cells : List Cell) : Prop :=
  ∀ entry ∈ live, 0 < entry.2 ∧
    ∃ block cell, entry.1 = block + headerSize ∧
      (block, cell) ∈ locate kernelMalloc cells ∧
      cell.used = true ∧ entry.2 ≤ cell.size

/-- The invariant of histories. -/
def Client.Good (client : Client) : Prop :=
  ∃ cells, Inv client.heap cells ∧ LiveBlocks client.live cells

/-! ## Preservation -/

theorem not_mem_locate_of_free
    {address block : ℕ} {cell : Cell} {cells : List Cell}
    (hfree : ∀ other ∈ cells, other.used = false)
    (hused : cell.used = true) :
    (block, cell) ∉ locate address cells := by
  intro hmem
  obtain ⟨front, back, rfl, -⟩ := mem_locate_iff.mp hmem
  have hcell := hfree cell (by simp)
  rw [hused] at hcell
  cases hcell

theorem Client.Good.kmalloc
    {client : Client} {next : State} {size ptr : ℕ}
    (hgood : client.Good) (hsize : size < 0x40000000)
    (hcall : kmalloc size client.heap = .ok (ptr, next)) :
    Client.Good ⟨next, if ptr = 0 then client.live
      else (ptr, size) :: client.live⟩ := by
  obtain ⟨cells, hinv, hlive⟩ := hgood
  rcases Nat.eq_zero_or_pos size with rfl | hpositive
  · have hsame : (0, client.heap) = (ptr, next) := by
      unfold Heap.kmalloc at hcall
      rw [hinv.kmallocInit_eq] at hcall
      exact Except.ok.inj hcall
    cases hsame
    exact ⟨cells, hinv, by simpa using hlive⟩
  · obtain ⟨front, old, back, room, rest, rfl, hold, -, hroom, rfl, hextent,
      hnext⟩ := kmalloc_spec hinv hpositive hsize hcall
    rw [if_neg (by norm_num [kernelMalloc])]
    refine ⟨_, hnext, ?_⟩
    intro entry hentry
    rcases List.mem_cons.mp hentry with rfl | hentry
    · refine ⟨hpositive, kernelMalloc + extent front, ⟨room, true⟩, rfl, ?_,
        rfl, hroom⟩
      exact mem_locate_iff.mpr ⟨front, rest ++ back, by simp, rfl⟩
    · obtain ⟨hpos, block, cell, hblock, hmem, hused, hfits⟩ :=
        hlive entry hentry
      exact ⟨hpos, block, cell, hblock,
        mem_locate_replace hmem (not_mem_locate_of_free hold hused) hextent,
        hused, hfits⟩

theorem Client.Good.kfree
    {client : Client} {ptr size : ℕ}
    (hgood : client.Good) (hptr : (ptr, size) ∈ client.live) :
    ∃ next, kfree ptr client.heap = .ok next ∧
      Client.Good ⟨next,
        client.live.filter fun entry => entry.1 ≠ ptr⟩ := by
  obtain ⟨cells, hinv, hlive⟩ := hgood
  obtain ⟨hpositive, block, cell, hblock, hmem, hused, hfits⟩ :=
    hlive _ hptr
  dsimp only at hpositive hblock hfits
  obtain ⟨front, back, rfl, rfl⟩ := mem_locate_iff.mp hmem
  obtain ⟨next, lead, before, after, tail, merged, hcall, rfl, rfl, hbefore,
    hafter, hmerged, hspan, hnext⟩ := kfree_spec hinv hused (by omega)
  rw [hblock]
  refine ⟨next, hcall, _, hnext, ?_⟩
  intro entry hentry
  simp only [List.mem_filter, decide_eq_true_eq] at hentry
  obtain ⟨hentryLive, hother⟩ := hentry
  obtain ⟨hpos, block', cell', hblock', hmem', hused', hfits'⟩ :=
    hlive entry hentryLive
  refine ⟨hpos, block', cell', hblock', ?_, hused', hfits'⟩
  have hthere :
      (block', cell') ∈ locate kernelMalloc
        (lead ++ (before ++ [cell] ++ after) ++ tail) := by
    simpa using hmem'
  refine mem_locate_replace hthere ?_ (.inr (by simpa using hspan))
  -- Inside the replaced blocks only `cell` itself was used.
  intro hinside
  simp only [locate_append, List.mem_append] at hinside
  rcases hinside with (hin | hin) | hin
  · exact not_mem_locate_of_free hbefore hused' hin
  · simp only [locate, List.mem_singleton, Prod.mk.injEq] at hin
    apply hother
    rw [hblock', hin.1, extent_append, ← Nat.add_assoc]
  · exact not_mem_locate_of_free hafter hused' hin

theorem Represents.update_payload
    {mem : ByteStore} {final prev address block k : ℕ} {byte : UInt8}
    {cell : Cell} {cells : List Cell}
    (h : Represents mem final prev address cells)
    (hmem : (block, cell) ∈ locate address cells)
    (hlow : block + headerSize ≤ k) (hhigh : k < block + cell.span) :
    Represents (Function.update mem k byte) final prev address cells := by
  have hchanges : ChangesOnly mem (Function.update mem k byte) k (k + 1) := by
    intro i hi
    exact Function.update_of_ne (by omega) _ _
  induction cells generalizing prev address with
  | nil => trivial
  | cons first cells ih =>
      simp only [locate, List.mem_cons, Prod.mk.injEq] at hmem
      have hfirst := headerSize_le_span first
      rcases hmem with ⟨rfl, rfl⟩ | hmem
      · exact ⟨(headerAt_of_changesOnly hchanges (.inl hlow)).trans h.1,
          h.2.congr (hchanges.agreeOn (.inr (by omega)))⟩
      · obtain ⟨front, back, -, hblock⟩ := mem_locate_iff.mp hmem
        exact ⟨(headerAt_of_changesOnly hchanges (.inl (by omega))).trans h.1,
          ih h.2 hmem⟩

theorem Inv.store
    {client : Client} {cells : List Cell} {address : ℕ} {byte : UInt8}
    (hinv : Inv client.heap cells) (hlive : LiveBlocks client.live cells)
    (hallowed : client.Allows (.store address byte)) :
    Inv { client.heap with
      mem := Function.update client.heap.mem address byte } cells := by
  obtain ⟨ptr, size, hptr, hlow, hhigh⟩ := hallowed
  obtain ⟨-, block, cell, hblock, hmem, -, -⟩ := hlive _ hptr
  dsimp only at hblock
  rw [hblock] at hlow hhigh
  rw [Nat.add_sub_cancel] at hhigh
  obtain ⟨front, back, hcells, hstands⟩ := mem_locate_iff.mp hmem
  have hsize : sizeOf client.heap.mem block = cell.size := by
    have hrepresents := hinv.represents
    rw [hcells] at hrepresents
    rw [hstands]
    exact congrArg Header.size hrepresents.header
  rw [hsize] at hhigh
  refine ⟨hinv.initialized, hinv.head, hinv.start, hinv.nonempty, ?_,
    hinv.extent_eq, hinv.thresholds, hinv.backed, hinv.separated⟩
  exact hinv.represents.update_payload hmem hlow (by
    unfold Cell.span
    omega)

theorem Client.Good.store
    {client : Client} {address : ℕ} {byte : UInt8}
    (hgood : client.Good) (hallowed : client.Allows (.store address byte)) :
    Client.Good { client with
      heap := { client.heap with
        mem := Function.update client.heap.mem address byte } } := by
  obtain ⟨cells, hinv, hlive⟩ := hgood
  exact ⟨cells, hinv.store hlive hallowed, hlive⟩

theorem Client.Reachable.good {client : Client}
    (hreach : client.Reachable) : client.Good := by
  induction hreach with
  | boot hfresh hinit =>
      exact ⟨_, kmallocInit_spec hfresh hinit, by simp [LiveBlocks]⟩
  | @step client next request _ hallowed hserve hgood =>
      cases request with
      | kmalloc size =>
          obtain ⟨⟨ptr, heap⟩, hcall, hnext⟩ :=
            Outcome.bind_eq_ok.mp hserve
          cases hnext
          exact hgood.kmalloc hallowed hcall
      | kfree ptr =>
          obtain ⟨heap, hcall, hnext⟩ := Outcome.bind_eq_ok.mp hserve
          cases hnext
          rcases hallowed with rfl | ⟨size, hptr⟩
          · obtain ⟨cells, hinv, hlive⟩ := hgood
            have hsame : client.heap = heap := by
              unfold Heap.kfree at hcall
              rw [hinv.kmallocInit_eq] at hcall
              exact Except.ok.inj hcall
            refine ⟨cells, hsame ▸ hinv, ?_⟩
            intro entry hentry
            exact hlive entry (List.mem_filter.mp hentry).1
          · obtain ⟨next, hnext, hgood⟩ := hgood.kfree hptr
            rw [hcall] at hnext
            cases hnext
            exact hgood
      | store address byte =>
          cases hserve
          exact hgood.store hallowed

/-! ## The block list -/

/-- `blocks` are the blocks reached from `first` by `next`, up to `NULL`. -/
def Walk (mem : ByteStore) : ℕ → List ℕ → Prop
  | first, [] => first = 0
  | first, block :: blocks =>
      first = block ∧ block ≠ 0 ∧ Walk mem (nextOf mem block) blocks

/-- The block list of a heap is doubly linked and tiles the heap. -/
structure Tiles (s : State) (blocks : List ℕ) : Prop where
  walk : Walk s.mem s.heapHead blocks
  first : blocks.head? = some s.heapStart
  adjacent : blocks.IsChain fun block next =>
    next = block + headerSize + sizeOf s.mem block
  last : ∀ block ∈ blocks.getLast?,
    block + headerSize + sizeOf s.mem block = s.heapStart + s.heapSize
  magic : ∀ block ∈ blocks, magicOf s.mem block = heapMagic
  prevFirst : prevOf s.mem s.heapHead = 0
  prevInverse : blocks.IsChain fun block next =>
    nextOf s.mem block = next ∧ prevOf s.mem next = block
  separated : blocks.IsChain fun block next =>
    usedOf s.mem block = true ∨ usedOf s.mem next = true

/-- The addresses of the blocks of a layout. -/
def addresses (address : ℕ) : List Cell → List ℕ
  | [] => []
  | cell :: cells => address :: addresses (address + cell.span) cells

theorem addresses_head (address : ℕ) {cells : List Cell}
    (hcells : cells ≠ []) : (addresses address cells).head? = some address := by
  cases cells with
  | nil => exact absurd rfl hcells
  | cons cell cells => rfl

/-- A relation between neighbours follows from what it says of two represented
headers. -/
theorem addresses_isChain
    {mem : ByteStore} {prev address : ℕ} {cells : List Cell}
    {P : Cell → Cell → Prop} {R : ℕ → ℕ → Prop}
    (h : Represents mem 0 prev address cells) (hP : cells.IsChain P)
    (hR : ∀ block cell next after prev link, P cell next →
      headerAt mem block =
        ⟨heapMagic, cell.size, cell.used, after, prev⟩ →
      after = block + cell.span →
      headerAt mem after = ⟨heapMagic, next.size, next.used, link, block⟩ →
      R block after) :
    (addresses address cells).IsChain R := by
  induction cells generalizing prev address with
  | nil => exact List.isChain_nil
  | cons cell cells ih =>
      cases cells with
      | nil => exact List.isChain_singleton _
      | cons next rest =>
          obtain ⟨hhead, htail⟩ := h
          rw [List.isChain_cons_cons] at hP
          refine List.isChain_cons_cons.mpr ⟨?_, ih htail hP.2⟩
          exact hR address cell next _ prev _ hP.1 hhead rfl htail.1

theorem walk_addresses
    {mem : ByteStore} {prev address : ℕ} {cells : List Cell}
    (h : Represents mem 0 prev address cells) (haddress : 0 < address) :
    Walk mem (linkTo address cells 0) (addresses address cells) := by
  induction cells generalizing prev address with
  | nil => rfl
  | cons cell cells ih =>
      obtain ⟨hhead, htail⟩ := h
      have hnext :
          nextOf mem address = linkTo (address + cell.span) cells 0 :=
        congrArg Header.next hhead
      refine ⟨rfl, by omega, ?_⟩
      rw [hnext]
      exact ih htail (by omega)

theorem addresses_last
    {mem : ByteStore} {prev address : ℕ} {cells : List Cell}
    (h : Represents mem 0 prev address cells) :
    ∀ block ∈ (addresses address cells).getLast?,
      block + headerSize + sizeOf mem block = address + extent cells := by
  induction cells generalizing prev address with
  | nil => simp [addresses]
  | cons cell cells ih =>
      obtain ⟨hhead, htail⟩ := h
      intro block hblock
      cases cells with
      | nil =>
          simp only [addresses, List.getLast?_singleton,
            Option.mem_some_iff] at hblock
          have hsize : sizeOf mem address = cell.size :=
            congrArg Header.size hhead
          subst hblock
          simp only [hsize, extent_cons, extent_nil, Cell.span]
          omega
      | cons next rest =>
          have hlast := ih htail block (by
            simpa [addresses, List.getLast?_cons_cons] using hblock)
          rw [hlast, extent_cons cell, Nat.add_assoc]

theorem addresses_magic
    {mem : ByteStore} {prev address : ℕ} {cells : List Cell}
    (h : Represents mem 0 prev address cells) :
    ∀ block ∈ addresses address cells, magicOf mem block = heapMagic := by
  induction cells generalizing prev address with
  | nil => simp [addresses]
  | cons cell cells ih =>
      intro block hblock
      rcases List.mem_cons.mp hblock with rfl | hblock
      · exact congrArg Header.magic h.1
      · exact ih h.2 block hblock

theorem Inv.tiles {s : State} {cells : List Cell} (h : Inv s cells) :
    Tiles s (addresses kernelMalloc cells) := by
  have hlink : s.heapHead = linkTo kernelMalloc cells 0 := by
    rw [h.head]
    cases hcells : cells with
    | nil => exact absurd hcells h.nonempty
    | cons cell cells => rfl
  refine ⟨?_, ?_, ?_, ?_, addresses_magic h.represents, ?_, ?_, ?_⟩
  · rw [hlink]
    exact walk_addresses h.represents (by norm_num [kernelMalloc])
  · rw [h.start]
    exact addresses_head _ h.nonempty
  · refine addresses_isChain h.represents h.separated ?_
    intro block cell next after prev link _ hheader hafter _
    have hsize : sizeOf s.mem block = cell.size :=
      congrArg Header.size hheader
    rw [hafter, hsize, Nat.add_assoc]
    rfl
  · rw [h.start, ← h.extent_eq]
    exact addresses_last h.represents
  · rw [h.head]
    cases hcells : cells with
    | nil => exact absurd hcells h.nonempty
    | cons cell rest =>
        have hrepresents := h.represents
        rw [hcells] at hrepresents
        exact congrArg Header.prev hrepresents.1
  · refine addresses_isChain h.represents h.separated ?_
    intro block cell next after prev link _ hheader _ hnext
    exact ⟨congrArg Header.next hheader, congrArg Header.prev hnext⟩
  · refine addresses_isChain h.represents h.separated ?_
    intro block cell next after prev link hused hheader _ hnext
    have hfirst : usedOf s.mem block = cell.used :=
      congrArg Header.used hheader
    have hsecond : usedOf s.mem after = next.used :=
      congrArg Header.used hnext
    rwa [hfirst, hsecond]

theorem Client.Good.serve_ends {client : Client} (hgood : client.Good)
    {request : Request} (hallowed : client.Allows request) :
    (client.serve request).Ends := by
  obtain ⟨cells, hinv, -⟩ := id hgood
  cases request with
  | kmalloc size =>
      exact (kmalloc_ends hinv size).bind fun _ _ => Outcome.ends_ok _
  | kfree ptr =>
      rcases hallowed with rfl | ⟨size, hptr⟩
      · refine Outcome.Ends.bind ?_ fun _ _ => Outcome.ends_ok _
        unfold Heap.kfree
        rw [hinv.kmallocInit_eq]
        exact Outcome.ends_ok _
      · obtain ⟨next, hcall, -⟩ := hgood.kfree hptr
        simp only [Client.serve, hcall]
        exact Outcome.ends_ok _
  | store address byte => exact Outcome.ends_ok _

/-- A machine with 98 page frames, whose heap page table is in place. -/
def bootState : State where
  mem := fun _ => 0
  heapHead := 0
  heapStart := 0
  kmallocInitalized := false
  heapSize := 0
  vm :=
    { frames := { pmmInit 0x2000 0x64000 with totalAlloc := 0 }
      word := fun frame index =>
        if frame = 0 ∧ index = 1023 then 3
        else if frame = 0 ∧ index = 832 then 0x1003
        else 0
      cr3 := 0
      initialPageDir := kernelStart
      pageDirs := fun i => 0xC1000000 + 0x1000 * i
      pageDirsUsed := fun _ => false
      memNumVpages := 0 }

/-- Serve requests one after another on the freshly initialised heap of
`bootState`. -/
def bootHistory (requests : List Request) : Outcome Client := do
  requests.foldlM Client.serve ⟨← kmallocInit bootState, []⟩

theorem bootHistory_live :
    ((bootHistory [.kmalloc 100, .kmalloc 8]).toOption.map Client.live,
      (bootHistory [.kmalloc 100, .kmalloc 8,
        .kfree 0xD0000011]).toOption.map Client.live) =
    (some [(0xD000008A, 8), (0xD0000011, 100)], some [(0xD000008A, 8)]) := by
  decide +kernel

/-- Two payloads are live after two requests. -/
theorem bootHistory_pair :
    ∃ client : Client, bootHistory [.kmalloc 100, .kmalloc 8] = .ok client ∧
      client.live = [(0xD000008A, 8), (0xD0000011, 100)] ∧ client.Reachable := by
  obtain ⟨hlive, -⟩ := Prod.mk.inj bootHistory_live
  cases hrun : bootHistory [.kmalloc 100, .kmalloc 8] with
  | error halt =>
      rw [hrun] at hlive
      cases hlive
  | ok client =>
      rw [hrun] at hlive
      obtain ⟨heap, hinit, hrun⟩ := Outcome.bind_eq_ok.mp hrun
      obtain ⟨first, hserve1, hrun⟩ := Outcome.bind_eq_ok.mp hrun
      obtain ⟨second, hserve2, hrun⟩ := Outcome.bind_eq_ok.mp hrun
      cases hrun
      have hreach : Client.Reachable ⟨heap, []⟩ := .boot rfl hinit
      exact ⟨client, rfl, Option.some.inj hlive,
        (hreach.step (by norm_num [Client.Allows]) hserve1).step
          (by norm_num [Client.Allows]) hserve2⟩

/-- The first of them is given back. -/
theorem bootHistory_reachable :
    ∃ client : Client,
      bootHistory [.kmalloc 100, .kmalloc 8, .kfree 0xD0000011] =
          .ok client ∧
        client.live = [(0xD000008A, 8)] ∧ client.Reachable := by
  obtain ⟨-, hlive⟩ := Prod.mk.inj bootHistory_live
  obtain ⟨second, hpair, hsecond, hreach⟩ := bootHistory_pair
  have hrun : bootHistory [.kmalloc 100, .kmalloc 8, .kfree 0xD0000011] =
      second.serve (.kfree 0xD0000011) := by
    have happend : bootHistory ([.kmalloc 100, .kmalloc 8] ++
        [.kfree 0xD0000011]) = bootHistory [.kmalloc 100, .kmalloc 8] >>=
          fun client => client.serve (.kfree 0xD0000011) := by
      unfold bootHistory
      simp only [List.foldlM_append, bind_assoc, List.foldlM_cons,
        List.foldlM_nil, bind_pure]
    rw [hpair] at happend
    exact happend
  rw [hrun] at hlive ⊢
  cases hserve : second.serve (.kfree 0xD0000011) with
  | error halt =>
      rw [hserve] at hlive
      cases hlive
  | ok client =>
      rw [hserve] at hlive
      have hallowed : second.Allows (.kfree 0xD0000011) :=
        Or.inr ⟨100, by simp [hsecond]⟩
      exact ⟨client, rfl, Option.some.inj hlive, hreach.step hallowed hserve⟩

end ClOs.Heap
