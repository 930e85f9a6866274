import ClOs.HeapModel

/-!
# Heap layouts

A layout is the list of heap blocks in address order, without addresses: the
blocks tile the heap, so their sizes determine where they stand.
`Represents` says that a byte store holds the headers of a layout.  The rest
of the file describes how memory edits act on layouts.
-/

namespace ClOs.Heap

/-- One block of a layout. -/
structure Cell where
  size : ℕ
  used : Bool
  deriving DecidableEq, Repr

/-- The bytes a block occupies, header included. -/
def Cell.span (cell : Cell) : ℕ := headerSize + cell.size

/-- The bytes a layout occupies. -/
def extent : List Cell → ℕ
  | [] => 0
  | cell :: cells => cell.span + extent cells

/-- The header fields at an address. -/
structure Header where
  magic : ℕ
  size : ℕ
  used : Bool
  next : ℕ
  prev : ℕ
  deriving DecidableEq, Repr

def headerAt (mem : ByteStore) (block : ℕ) : Header where
  magic := magicOf mem block
  size := sizeOf mem block
  used := usedOf mem block
  next := nextOf mem block
  prev := prevOf mem block

/-- The pointer to a layout that stands at `address`: `final` when the layout
is empty. -/
def linkTo (address : ℕ) (cells : List Cell) (final : ℕ) : ℕ :=
  if cells.isEmpty then final else address

/-- The address of the last block of a layout, or `prev` when it is empty. -/
def lastAddress (prev address : ℕ) : List Cell → ℕ
  | [] => prev
  | cell :: cells => lastAddress address (address + cell.span) cells

/-- The headers of a layout that stands at `address`, behind the block `prev`
and in front of `final`, are in memory. -/
def Represents (mem : ByteStore) (final : ℕ) :
    ℕ → ℕ → List Cell → Prop
  | _, _, [] => True
  | prev, address, cell :: cells =>
      headerAt mem address =
          ⟨heapMagic, cell.size, cell.used,
            linkTo (address + cell.span) cells final, prev⟩ ∧
        Represents mem final address (address + cell.span) cells

@[simp] theorem extent_nil : extent [] = 0 := rfl

@[simp] theorem extent_cons (cell : Cell) (cells : List Cell) :
    extent (cell :: cells) = cell.span + extent cells := rfl

@[simp] theorem extent_append (front back : List Cell) :
    extent (front ++ back) = extent front + extent back := by
  induction front with
  | nil => simp
  | cons cell cells ih => simp [ih, Nat.add_assoc]

theorem headerSize_le_span (cell : Cell) : headerSize ≤ cell.span :=
  Nat.le_add_right _ _

theorem length_le_extent (cells : List Cell) :
    cells.length ≤ extent cells := by
  induction cells with
  | nil => simp
  | cons cell cells ih =>
      have hspan := headerSize_le_span cell
      simp only [List.length_cons, extent_cons, headerSize] at *
      omega

@[simp] theorem linkTo_nil (address final : ℕ) :
    linkTo address [] final = final := rfl

@[simp] theorem linkTo_cons
    (address final : ℕ) (cell : Cell) (cells : List Cell) :
    linkTo address (cell :: cells) final = address := rfl

theorem linkTo_append
    (address final : ℕ) (front back : List Cell) :
    linkTo address (front ++ back) final =
      linkTo address front (linkTo (address + extent front) back final) := by
  cases front <;> simp

@[simp] theorem lastAddress_nil (prev address : ℕ) :
    lastAddress prev address [] = prev := rfl

@[simp] theorem lastAddress_cons
    (prev address : ℕ) (cell : Cell) (cells : List Cell) :
    lastAddress prev address (cell :: cells) =
      lastAddress address (address + cell.span) cells := rfl

@[simp] theorem lastAddress_concat
    (prev address : ℕ) (cells : List Cell) (last : Cell) :
    lastAddress prev address (cells ++ [last]) =
      address + extent cells := by
  induction cells generalizing prev address with
  | nil => simp
  | cons cell cells ih => simp [ih, Nat.add_assoc]

theorem represents_append
    {mem : ByteStore} {final prev address : ℕ} {front back : List Cell} :
    Represents mem final prev address (front ++ back) ↔
      Represents mem (linkTo (address + extent front) back final)
          prev address front ∧
        Represents mem final (lastAddress prev address front)
          (address + extent front) back := by
  induction front generalizing prev address with
  | nil => simp [Represents]
  | cons cell cells ih =>
      simp only [List.cons_append, Represents, ih, lastAddress_cons,
        extent_cons, linkTo_append, Nat.add_assoc, and_assoc]

/-! ## Memory edits at one header -/

theorem headerAt_congr
    {mem mem' : ByteStore} {block : ℕ}
    (h : ByteStore.AgreeOn mem' mem block (block + headerSize)) :
    headerAt mem' block = headerAt mem block := by
  have hused : mem' (block + 8) = mem (block + 8) :=
    h _ (by omega) (by norm_num [headerSize])
  simp only [headerAt, magicOf, sizeOf, usedOf, nextOf, prevOf, hused]
  rw [h.le32_eq block le_rfl (by norm_num [headerSize]),
    h.le32_eq (block + 4) (by omega) (by norm_num [headerSize]),
    h.le32_eq (block + 9) (by omega) (by norm_num [headerSize]),
    h.le32_eq (block + 13) (by omega) (by norm_num [headerSize])]

def ChangesOnly (mem edited : ByteStore) (low high : ℕ) : Prop :=
  ∀ k, k < low ∨ high ≤ k → edited k = mem k

theorem ChangesOnly.agreeOn
    {mem edited : ByteStore} {low high low' high' : ℕ}
    (h : ChangesOnly mem edited low high)
    (hdisjoint : high' ≤ low ∨ high ≤ low') :
    ByteStore.AgreeOn edited mem low' high' := by
  intro k hlow hhigh
  exact h k (by omega)

theorem setMagic_changesOnly (mem : ByteStore) (block value : ℕ) :
    ChangesOnly mem (setMagic block value mem) block (block + headerSize) := by
  intro k hk
  exact ByteStore.put32_outside _ (by simp only [headerSize] at hk; omega)

theorem setSize_changesOnly (mem : ByteStore) (block value : ℕ) :
    ChangesOnly mem (setSize block value mem) block (block + headerSize) := by
  intro k hk
  exact ByteStore.put32_outside _ (by simp only [headerSize] at hk; omega)

theorem setUsed_changesOnly (mem : ByteStore) (block : ℕ) (value : Bool) :
    ChangesOnly mem (setUsed block value mem) block (block + headerSize) := by
  intro k hk
  exact ByteStore.put8_apply_of_ne _ (by simp only [headerSize] at hk; omega)

theorem setNext_changesOnly (mem : ByteStore) (block value : ℕ) :
    ChangesOnly mem (setNext block value mem) block (block + headerSize) := by
  intro k hk
  exact ByteStore.put32_outside _ (by simp only [headerSize] at hk; omega)

theorem setPrev_changesOnly (mem : ByteStore) (block value : ℕ) :
    ChangesOnly mem (setPrev block value mem) block (block + headerSize) := by
  intro k hk
  exact ByteStore.put32_outside _ (by simp only [headerSize] at hk; omega)

theorem writeHeader_changesOnly
    (mem : ByteStore) (block size : ℕ) (used : Bool) (next prev : ℕ) :
    ChangesOnly mem (writeHeader block size used next prev mem)
      block (block + headerSize) := by
  intro k hk
  unfold writeHeader
  rw [setPrev_changesOnly _ _ _ k hk, setNext_changesOnly _ _ _ k hk,
    setUsed_changesOnly _ _ _ k hk, setSize_changesOnly _ _ _ k hk]
  exact setMagic_changesOnly _ _ _ k hk

@[simp] theorem headerAt_setSize (mem : ByteStore) (block value : ℕ) :
    headerAt (setSize block value mem) block =
      { headerAt mem block with size := u32 value } := by
  have hused : setSize block value mem (block + 8) = mem (block + 8) :=
    ByteStore.put32_outside _ (by omega)
  simp only [headerAt, magicOf, sizeOf, usedOf, nextOf, prevOf, hused]
  unfold setSize
  rw [ByteStore.le32_put32_same,
    ByteStore.le32_put32_of_disjoint _ block (by omega),
    ByteStore.le32_put32_of_disjoint _ (block + 9) (by omega),
    ByteStore.le32_put32_of_disjoint _ (block + 13) (by omega)]

@[simp] theorem headerAt_setUsed
    (mem : ByteStore) (block : ℕ) (value : Bool) :
    headerAt (setUsed block value mem) block =
      { headerAt mem block with used := value } := by
  have hused : (setUsed block value mem (block + 8) != 0) = value := by
    unfold setUsed
    rw [ByteStore.put8_same]
    cases value <;> decide
  simp only [headerAt, magicOf, sizeOf, usedOf, nextOf, prevOf, hused]
  unfold setUsed
  rw [ByteStore.le32_put8_of_disjoint _ block (by omega),
    ByteStore.le32_put8_of_disjoint _ (block + 4) (by omega),
    ByteStore.le32_put8_of_disjoint _ (block + 9) (by omega),
    ByteStore.le32_put8_of_disjoint _ (block + 13) (by omega)]

@[simp] theorem headerAt_setNext (mem : ByteStore) (block value : ℕ) :
    headerAt (setNext block value mem) block =
      { headerAt mem block with next := u32 value } := by
  have hused : setNext block value mem (block + 8) = mem (block + 8) :=
    ByteStore.put32_outside _ (by omega)
  simp only [headerAt, magicOf, sizeOf, usedOf, nextOf, prevOf, hused]
  unfold setNext
  rw [ByteStore.le32_put32_same,
    ByteStore.le32_put32_of_disjoint _ block (by omega),
    ByteStore.le32_put32_of_disjoint _ (block + 4) (by omega),
    ByteStore.le32_put32_of_disjoint _ (block + 13) (by omega)]

@[simp] theorem headerAt_setPrev (mem : ByteStore) (block value : ℕ) :
    headerAt (setPrev block value mem) block =
      { headerAt mem block with prev := u32 value } := by
  have hused : setPrev block value mem (block + 8) = mem (block + 8) :=
    ByteStore.put32_outside _ (by omega)
  simp only [headerAt, magicOf, sizeOf, usedOf, nextOf, prevOf, hused]
  unfold setPrev
  rw [ByteStore.le32_put32_same,
    ByteStore.le32_put32_of_disjoint _ block (by omega),
    ByteStore.le32_put32_of_disjoint _ (block + 4) (by omega),
    ByteStore.le32_put32_of_disjoint _ (block + 9) (by omega)]

@[simp] theorem headerAt_setMagic (mem : ByteStore) (block value : ℕ) :
    headerAt (setMagic block value mem) block =
      { headerAt mem block with magic := u32 value } := by
  have hused : setMagic block value mem (block + 8) = mem (block + 8) :=
    ByteStore.put32_outside _ (by omega)
  simp only [headerAt, magicOf, sizeOf, usedOf, nextOf, prevOf, hused]
  unfold setMagic
  rw [ByteStore.le32_put32_same,
    ByteStore.le32_put32_of_disjoint _ (block + 4) (by omega),
    ByteStore.le32_put32_of_disjoint _ (block + 9) (by omega),
    ByteStore.le32_put32_of_disjoint _ (block + 13) (by omega)]

theorem headerAt_writeHeader
    (mem : ByteStore) (block size : ℕ) (used : Bool) (next prev : ℕ) :
    headerAt (writeHeader block size used next prev mem) block =
      ⟨heapMagic, u32 size, used, u32 next, u32 prev⟩ := by
  simp [writeHeader, u32_of_lt, heapMagic]

/-! ## Layout edits -/

theorem Represents.congr
    {mem mem' : ByteStore} {final prev address : ℕ} {cells : List Cell}
    (h : Represents mem final prev address cells)
    (hagree : ByteStore.AgreeOn mem' mem address
      (address + extent cells)) :
    Represents mem' final prev address cells := by
  induction cells generalizing prev address with
  | nil => trivial
  | cons cell cells ih =>
      have hspan := headerSize_le_span cell
      rw [extent_cons] at hagree
      refine ⟨(headerAt_congr (hagree.mono le_rfl (by omega))).trans h.1,
        ih h.2 (hagree.mono (by omega) (by omega))⟩

/-- Replace the middle of a layout.  The front is untouched, the new middle
has been written, and the first header behind it points back to its last
block. -/
theorem Represents.replace
    {mem mem' : ByteStore} {prev start : ℕ}
    {front middle middle' back : List Cell}
    (h : Represents mem 0 prev start (front ++ middle ++ back))
    (hmiddle : middle ≠ []) (hmiddle' : middle' ≠ [])
    (hextent : back = [] ∨ extent middle' = extent middle)
    (hfront : ByteStore.AgreeOn mem' mem start (start + extent front))
    (hnew : Represents mem'
      (linkTo (start + extent front + extent middle') back 0)
      (lastAddress prev start front) (start + extent front) middle')
    (hback : ∀ cell cells, back = cell :: cells →
      headerAt mem' (start + extent front + extent middle) =
          { headerAt mem (start + extent front + extent middle) with
            prev := lastAddress (lastAddress prev start front)
              (start + extent front) middle' } ∧
        ByteStore.AgreeOn mem' mem
          (start + extent front + extent middle + headerSize)
          (start + extent front + extent middle + extent back)) :
    Represents mem' 0 prev start (front ++ middle' ++ back) := by
  rw [List.append_assoc, represents_append, represents_append] at h ⊢
  obtain ⟨hoff, hmid, hon⟩ := h
  refine ⟨?_, hnew, ?_⟩
  · have hlink (cells : List Cell) (hcells : cells ≠ []) :
        linkTo (start + extent front) (cells ++ back) 0 =
          start + extent front := by
      cases cells with
      | nil => exact absurd rfl hcells
      | cons cell cells => rfl
    rw [hlink middle' hmiddle']
    rw [hlink middle hmiddle] at hoff
    exact hoff.congr hfront
  · cases back with
    | nil => trivial
    | cons cell cells =>
        have hsame : extent middle' = extent middle := by
          rcases hextent with hnil | hsame
          · cases hnil
          · exact hsame
        obtain ⟨hheader, hagree⟩ := hback cell cells rfl
        rw [hsame]
        refine ⟨?_, ?_⟩
        · rw [hheader, hon.1]
        · have hspan := headerSize_le_span cell
          refine hon.2.congr (hagree.mono (by omega) ?_)
          rw [extent_cons]
          omega

end ClOs.Heap
