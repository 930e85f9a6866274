import ClOs.ByteStore

/-!
# The page-frame allocator

`pmm_init`, `pmm_alloc_page_frame` and `pmm_free_page_frame` hand out physical
page frames from a bitmap of fixed size.  The bitmap is a C array, so an index
past its end is reported as a halt instead of being given a value.
-/

namespace ClOs

/-- The ways a kernel call can fail to return. -/
inductive Halt
  | kernelPanic
  | pageFault
  | outOfBounds
  | endless
  deriving DecidableEq, Repr

abbrev Outcome (α : Type) := Except Halt α

theorem Outcome.bind_eq_ok {α β : Type}
    {first : Outcome α} {rest : α → Outcome β} {result : β} :
    (first >>= rest) = .ok result ↔
      ∃ value, first = .ok value ∧ rest value = .ok result := by
  cases first with
  | error halt => simp [bind, Except.bind]
  | ok value => simp [bind, Except.bind]

theorem Outcome.bind_eq_error {α β : Type}
    {first : Outcome α} {rest : α → Outcome β} {halt : Halt} :
    (first >>= rest) = .error halt ↔
      first = .error halt ∨
        ∃ value, first = .ok value ∧ rest value = .error halt := by
  cases first with
  | error other => simp [bind, Except.bind]
  | ok value => simp [bind, Except.bind]

/-- A computation does not run for ever. -/
def Outcome.Ends {α : Type} (outcome : Outcome α) : Prop :=
  outcome ≠ .error .endless

theorem Outcome.ends_ok {α : Type} (value : α) :
    Outcome.Ends (.ok value : Outcome α) := by
  simp [Outcome.Ends]

theorem Outcome.Ends.bind {α β : Type}
    {first : Outcome α} {rest : α → Outcome β}
    (hfirst : first.Ends)
    (hrest : ∀ value, first = .ok value → (rest value).Ends) :
    Outcome.Ends (first >>= rest) := by
  cases first with
  | error halt =>
      simpa [Outcome.Ends, Bind.bind, Except.bind] using hfirst
  | ok value => exact hrest value rfl

/-- Run a test on the result of a computation. -/
def Outcome.satisfies {α : Type} (outcome : Outcome α) (test : α → Bool) :
    Bool :=
  match outcome with
  | .ok value => test value
  | .error _ => false

theorem Outcome.exists_of_satisfies {α : Type}
    {outcome : Outcome α} {test : α → Bool}
    (h : outcome.satisfies test = true) :
    ∃ value, outcome = .ok value ∧ test value = true := by
  cases outcome with
  | error halt => simp [Outcome.satisfies] at h
  | ok value => exact ⟨value, rfl, h⟩

theorem Outcome.exists_some_of_satisfies {α : Type}
    {outcome : Outcome (Option α)} {test : α → Bool}
    (h : outcome.satisfies (fun found => found.any test) = true) :
    ∃ value, outcome = .ok (some value) ∧ test value = true := by
  obtain ⟨found, hfound, htest⟩ := Outcome.exists_of_satisfies h
  cases found with
  | none => simp at htest
  | some value => exact ⟨value, hfound, htest⟩

/-- `CEIL_DIV(a, b)` on 32-bit operands. -/
def ceilDiv (a b : ℕ) : ℕ := sub32 (u32 (a + b)) 1 / b

namespace Memory

def numPageFrames : ℕ := 0x10000000 / 0x1000

structure Frames where
  pageFrameMin : ℕ
  pageFrameMax : ℕ
  totalAlloc : ℕ
  physicalMemoryBitmap : ByteStore

def pmmInit (memLow memHigh : ℕ) : Frames where
  pageFrameMin := ceilDiv memLow 0x1000
  pageFrameMax := memHigh / 0x1000
  totalAlloc := 0
  physicalMemoryBitmap := fun _ => 0

/-- The loop of `pmm_alloc_page_frame` over the next `count` frames. -/
def pmmAllocFrom (frames : Frames) : ℕ → ℕ → Outcome (ℕ × Frames)
  | 0, _ => .ok (0, frames)
  | count + 1, frame =>
      if numPageFrames / 8 ≤ frame / 8 then .error .outOfBounds
      else if frames.physicalMemoryBitmap.bit frame then
        pmmAllocFrom frames count (frame + 1)
      else
        .ok (u32 (frame * 0x1000), { frames with
          physicalMemoryBitmap := frames.physicalMemoryBitmap.setBit frame
          totalAlloc := u32 (frames.totalAlloc + 1) })

def pmmAllocPageFrame (frames : Frames) : Outcome (ℕ × Frames) :=
  pmmAllocFrom frames (frames.pageFrameMax - frames.pageFrameMin)
    frames.pageFrameMin

def pmmFreePageFrame (address : ℕ) (frames : Frames) : Outcome Frames :=
  let frameIndex := address / 0x1000
  if frameIndex < frames.pageFrameMin ∨ frames.pageFrameMax < frameIndex then
    .ok frames
  else if numPageFrames / 8 ≤ frameIndex / 8 then .error .outOfBounds
  else if frames.physicalMemoryBitmap.bit frameIndex then
    .ok { frames with
      totalAlloc := sub32 frames.totalAlloc 1
      physicalMemoryBitmap :=
        frames.physicalMemoryBitmap.clearBit frameIndex }
  else .ok frames

def Frames.allocated (frames : Frames) : Finset ℕ :=
  (Finset.range numPageFrames).filter
    (fun frame => frames.physicalMemoryBitmap.bit frame = true)

theorem Frames.card_allocated_le (frames : Frames) :
    frames.allocated.card ≤ numPageFrames := by
  have h := Finset.card_filter_le (Finset.range numPageFrames)
    (fun frame => frames.physicalMemoryBitmap.bit frame = true)
  simpa [Frames.allocated] using h

/-- A successful allocation sets one bit that was clear, and a failed one
changes nothing. -/
theorem pmmAllocFrom_spec
    {frames next : Frames} {count frame address : ℕ}
    (halloc : pmmAllocFrom frames count frame = .ok (address, next)) :
    (address = 0 ∧ next = frames) ∨
      ∃ taken, frame ≤ taken ∧ taken < frame + count ∧
        taken < numPageFrames ∧
        frames.physicalMemoryBitmap.bit taken = false ∧
        address = u32 (taken * 0x1000) ∧
        next = { frames with
          physicalMemoryBitmap := frames.physicalMemoryBitmap.setBit taken
          totalAlloc := u32 (frames.totalAlloc + 1) } := by
  induction count generalizing frame with
  | zero =>
      simp only [pmmAllocFrom, Except.ok.injEq, Prod.mk.injEq] at halloc
      exact .inl ⟨halloc.1.symm, halloc.2.symm⟩
  | succ count ih =>
      simp only [pmmAllocFrom] at halloc
      split_ifs at halloc with hbounds hbit
      · rcases ih halloc with hnone | ⟨taken, hlow, hhigh, hrest⟩
        · exact .inl hnone
        · exact .inr ⟨taken, by omega, by omega, hrest⟩
      · simp only [Except.ok.injEq, Prod.mk.injEq] at halloc
        have hnum : numPageFrames / 8 * 8 = numPageFrames := by
          norm_num [numPageFrames]
        exact .inr ⟨frame, le_rfl, by omega, by omega,
          by simpa using hbit, halloc.1.symm, halloc.2.symm⟩

theorem pmmAllocPageFrame_ends (frames : Frames) :
    (pmmAllocPageFrame frames).Ends := by
  unfold pmmAllocPageFrame
  generalize frames.pageFrameMax - frames.pageFrameMin = count
  generalize frames.pageFrameMin = frame
  induction count generalizing frame with
  | zero => exact Outcome.ends_ok _
  | succ count ih =>
      unfold pmmAllocFrom
      split_ifs
      · simp [Outcome.Ends]
      · exact ih (frame + 1)
      · exact Outcome.ends_ok _

/-- Allocation never clears a bit, and a frame address other than `0` accounts
for one more set bit. -/
theorem pmmAllocPageFrame_card
    {frames next : Frames} {address : ℕ}
    (halloc : pmmAllocPageFrame frames = .ok (address, next)) :
    frames.allocated.card + (if address = 0 then 0 else 1) ≤
      next.allocated.card := by
  rcases pmmAllocFrom_spec halloc with
    ⟨haddress, rfl⟩ | ⟨taken, -, -, hbound, hclear, -, rfl⟩
  · simp [haddress]
  · have hinsert :
        insert taken frames.allocated ⊆
          (Frames.allocated { frames with
            physicalMemoryBitmap := frames.physicalMemoryBitmap.setBit taken
            totalAlloc := u32 (frames.totalAlloc + 1) }) := by
      intro frame hframe
      simp only [Frames.allocated, Finset.mem_insert, Finset.mem_filter,
        Finset.mem_range, ByteStore.bit_setBit, Bool.or_eq_true,
        decide_eq_true_eq] at hframe ⊢
      rcases hframe with rfl | ⟨hrange, hset⟩
      · exact ⟨hbound, .inr rfl⟩
      · exact ⟨hrange, .inl hset⟩
    have hfresh : taken ∉ frames.allocated := by
      simp [Frames.allocated, hclear]
    have hcard := Finset.card_le_card hinsert
    rw [Finset.card_insert_of_notMem hfresh] at hcard
    split_ifs <;> omega

end Memory

end ClOs
