import ClOs.PageFrames

/-!
# Runs of the page-frame allocator

A client sees addresses that it is handed and addresses that it gives back.
The frames it still holds are computed from these events alone, and the static
data of the allocator are compared with them: the bitmap, the counter and the
scan stay in step through every sequence of calls.
-/

namespace ClOs.Memory

/-! ## Calls and events -/

inductive FrameCall
  | alloc
  | free (address : UInt32)

inductive FrameEvent
  | handedOut (address : ℕ)
  | freed (address : ℕ)
  deriving DecidableEq

def FrameCall.run (frames : Frames) :
    FrameCall → Outcome (FrameEvent × Frames)
  | .alloc => do
      let (address, next) ← pmmAllocPageFrame frames
      return (.handedOut address, next)
  | .free address => do
      let next ← pmmFreePageFrame address.toNat frames
      return (.freed address.toNat, next)

def runFrameCalls (frames : Frames) :
    List FrameCall → Outcome (List FrameEvent × Frames)
  | [] => return ([], frames)
  | call :: rest => do
      let (event, middle) ← call.run frames
      let (events, last) ← runFrameCalls middle rest
      return (event :: events, last)

theorem FrameCall.run_alloc {frames next : Frames} {address : ℕ}
    (h : pmmAllocPageFrame frames = .ok (address, next)) :
    FrameCall.alloc.run frames = .ok (.handedOut address, next) := by
  simp [FrameCall.run, h, bind, Except.bind, pure, Except.pure]

theorem FrameCall.run_free {frames next : Frames} {address : UInt32}
    (h : pmmFreePageFrame address.toNat frames = .ok next) :
    (FrameCall.free address).run frames =
      .ok (.freed address.toNat, next) := by
  simp [FrameCall.run, h, bind, Except.bind, pure, Except.pure]

theorem runFrameCalls_cons
    {frames middle next : Frames} {call : FrameCall} {rest : List FrameCall}
    {event : FrameEvent} {events : List FrameEvent}
    (hcall : call.run frames = .ok (event, middle))
    (hrest : runFrameCalls middle rest = .ok (events, next)) :
    runFrameCalls frames (call :: rest) = .ok (event :: events, next) := by
  simp [runFrameCalls, hcall, hrest, bind, Except.bind, pure, Except.pure]

/-- The frames a client holds after an event.  The answer 0 hands out
nothing. -/
def FrameEvent.apply (held : Finset ℕ) : FrameEvent → Finset ℕ
  | .handedOut address =>
      if address = 0 then held else insert (address / 0x1000) held
  | .freed address => held.erase (address / 0x1000)

/-- The frames handed out and not freed since. -/
def outstanding (held : Finset ℕ) (events : List FrameEvent) : Finset ℕ :=
  events.foldl FrameEvent.apply held

@[simp] theorem outstanding_nil (held : Finset ℕ) :
    outstanding held [] = held := rfl

@[simp] theorem outstanding_cons
    (held : Finset ℕ) (event : FrameEvent) (events : List FrameEvent) :
    outstanding held (event :: events) =
      outstanding (event.apply held) events := rfl

/-! ## The scan -/

/-- The scan stops at its first clear bit, or finds none, or leaves the
bitmap. -/
theorem pmmAllocFrom_first
    (frames : Frames) (count frame : ℕ)
    (hbound : frame + count ≤ numPageFrames) :
    ((∀ f, frame ≤ f → f < frame + count →
        frames.physicalMemoryBitmap.bit f = true) ∧
      pmmAllocFrom frames count frame = .ok (0, frames)) ∨
    ∃ taken, frame ≤ taken ∧ taken < frame + count ∧
      frames.physicalMemoryBitmap.bit taken = false ∧
      (∀ f, frame ≤ f → f < taken →
        frames.physicalMemoryBitmap.bit f = true) ∧
      pmmAllocFrom frames count frame =
        .ok (u32 (taken * 0x1000), { frames with
          physicalMemoryBitmap := frames.physicalMemoryBitmap.setBit taken
          totalAlloc := u32 (frames.totalAlloc + 1) }) := by
  have hnum : numPageFrames / 8 * 8 = numPageFrames := by
    norm_num [numPageFrames]
  induction count generalizing frame with
  | zero => exact .inl ⟨fun f hlow hhigh => by omega, rfl⟩
  | succ count ih =>
      have hinside : ¬numPageFrames / 8 ≤ frame / 8 := by omega
      simp only [pmmAllocFrom, hinside, if_false]
      cases hbit : frames.physicalMemoryBitmap.bit frame with
      | false =>
          exact .inr ⟨frame, le_rfl, by omega, hbit,
            fun f hlow hhigh => by omega, by simp⟩
      | true =>
          rcases ih (frame + 1) (by omega) with
            ⟨hset, hnone⟩ | ⟨taken, hlow, hhigh, hclear, hbefore, htaken⟩
          · refine .inl ⟨fun f hf hf' => ?_, by simpa using hnone⟩
            rcases Nat.eq_or_lt_of_le hf with rfl | hlater
            · exact hbit
            · exact hset f hlater (by omega)
          · refine .inr ⟨taken, by omega, by omega, hclear, ?_,
              by simpa using htaken⟩
            intro f hf hf'
            rcases Nat.eq_or_lt_of_le hf with rfl | hlater
            · exact hbit
            · exact hbefore f hlater hf'

/-! ## Accounts -/

/-- The static data of an allocator for the frames from `low` to `high` agree
with the frames that its client holds. -/
structure Accounts (low high : ℕ) (frames : Frames) (held : Finset ℕ) :
    Prop where
  min_eq : frames.pageFrameMin = low
  max_eq : frames.pageFrameMax = high
  bit_iff : ∀ frame,
    frames.physicalMemoryBitmap.bit frame = true ↔ frame ∈ held
  inside : ∀ frame ∈ held, low ≤ frame ∧ frame < high
  total_eq : frames.totalAlloc = held.card

/-- The answer of an allocation: the lowest frame not held, or 0 if the client
holds them all. -/
def IsLowestFree (low high : ℕ) (held : Finset ℕ) (address : ℕ) : Prop :=
  (address = 0 ∧ ∀ frame, low ≤ frame → frame < high → frame ∈ held) ∨
    (address ≠ 0 ∧ ∃ frame, address = frame * 0x1000 ∧
      low ≤ frame ∧ frame < high ∧ frame ∉ held ∧
        ∀ lower, low ≤ lower → lower < frame → lower ∈ held)

variable {low high : ℕ} {frames : Frames} {held : Finset ℕ}

theorem Accounts.card_le (h : Accounts low high frames held) :
    held.card ≤ high - low := by
  have hsubset : held ⊆ Finset.Ico low high := by
    intro frame hframe
    exact Finset.mem_Ico.2 (h.inside frame hframe)
  simpa using Finset.card_le_card hsubset

theorem accounts_pmmInit (memLow memHigh : ℕ) :
    Accounts (pmmInit memLow memHigh).pageFrameMin
      (pmmInit memLow memHigh).pageFrameMax (pmmInit memLow memHigh) ∅ where
  min_eq := rfl
  max_eq := rfl
  bit_iff frame := by simp [pmmInit, ByteStore.bit]
  inside frame hframe := by simp at hframe
  total_eq := rfl

theorem Accounts.alloc
    (h : Accounts low high frames held)
    (hlow : 1 ≤ low)
    (hhigh : high < numPageFrames) :
    ∃ address next, pmmAllocPageFrame frames = .ok (address, next) ∧
      IsLowestFree low high held address ∧
        Accounts low high next
          (FrameEvent.apply held (.handedOut address)) := by
  have hcard := h.card_le
  have hnum : numPageFrames = 65536 := by norm_num [numPageFrames]
  unfold pmmAllocPageFrame
  rw [h.min_eq, h.max_eq]
  rcases Nat.lt_or_ge high low with hempty | hrange
  · have hzero : high - low = 0 := by omega
    rw [hzero]
    exact ⟨0, frames, rfl, .inl ⟨rfl, fun f hf hf' => by omega⟩,
      by simpa [FrameEvent.apply] using h⟩
  · rcases pmmAllocFrom_first frames (high - low) low (by omega) with
      ⟨hset, hnone⟩ | ⟨taken, hfrom, hto, hclear, hbefore, htaken⟩
    · refine ⟨0, frames, hnone, .inl ⟨rfl, fun f hf hf' => ?_⟩,
        by simpa [FrameEvent.apply] using h⟩
      exact (h.bit_iff f).1 (hset f hf (by omega))
    · have hfresh : taken ∉ held := by
        rw [← h.bit_iff, hclear]
        simp
      have haddress : u32 (taken * 0x1000) = taken * 0x1000 :=
        u32_of_lt (by omega)
      have hne : taken * 0x1000 ≠ 0 := by omega
      have hframe : taken * 0x1000 / 0x1000 = taken :=
        Nat.mul_div_cancel _ (by norm_num)
      refine ⟨_, _, htaken, ?_, ?_⟩
      · rw [haddress]
        exact .inr ⟨hne, taken, rfl, hfrom, by omega, hfresh,
          fun f hf hf' => (h.bit_iff f).1 (hbefore f hf hf')⟩
      · rw [haddress, FrameEvent.apply, if_neg hne, hframe]
        exact {
          min_eq := h.min_eq
          max_eq := h.max_eq
          bit_iff := fun frame => by
            simp only [ByteStore.bit_setBit, Bool.or_eq_true,
              decide_eq_true_eq, Finset.mem_insert, h.bit_iff]
            tauto
          inside := fun frame hframe' => by
            rcases Finset.mem_insert.1 hframe' with rfl | hold
            · omega
            · exact h.inside frame hold
          total_eq := by
            rw [Finset.card_insert_of_notMem hfresh, h.total_eq,
              u32_of_lt (by omega)] }

theorem Accounts.free
    (h : Accounts low high frames held)
    (hhigh : high < numPageFrames)
    (address : ℕ) :
    ∃ next, pmmFreePageFrame address frames = .ok next ∧
      next.totalAlloc ≤ frames.totalAlloc ∧
        Accounts low high next (FrameEvent.apply held (.freed address)) := by
  have hcard := h.card_le
  have hnum : numPageFrames = 65536 := by norm_num [numPageFrames]
  have hkeep : address / 0x1000 ∉ held →
      Accounts low high frames
        (FrameEvent.apply held (.freed address)) := by
    intro hnot
    rwa [FrameEvent.apply, Finset.erase_eq_of_notMem hnot]
  unfold pmmFreePageFrame
  simp only [h.min_eq, h.max_eq]
  split_ifs with hrange hbounds hbit
  · refine ⟨frames, rfl, le_rfl, hkeep fun hmem => ?_⟩
    have hinside := h.inside _ hmem
    omega
  · omega
  · have hmem := (h.bit_iff _).1 hbit
    have hpos := Finset.card_pos.2 ⟨_, hmem⟩
    have hsub : sub32 frames.totalAlloc 1 = held.card - 1 := by
      rw [h.total_eq, sub32_of_le (by omega) (by omega)]
    refine ⟨_, rfl, ?_, ?_⟩
    · simp only
      rw [hsub, h.total_eq]
      omega
    · exact {
        min_eq := rfl
        max_eq := rfl
        bit_iff := fun frame => by
          simp only [FrameEvent.apply, ByteStore.bit_clearBit,
            Bool.and_eq_true, Bool.not_eq_true', decide_eq_false_iff_not,
            Finset.mem_erase, h.bit_iff]
          constructor
          · rintro ⟨hold, hne⟩
            exact ⟨Ne.symm hne, hold⟩
          · rintro ⟨hne, hold⟩
            exact ⟨hold, Ne.symm hne⟩
        inside := fun frame hframe =>
          h.inside frame (Finset.mem_of_mem_erase hframe)
        total_eq := by
          simp only
          rw [FrameEvent.apply, Finset.card_erase_of_mem hmem, hsub] }
  · refine ⟨frames, rfl, le_rfl, hkeep fun hmem => ?_⟩
    exact hbit ((h.bit_iff _).2 hmem)

theorem Accounts.call
    (h : Accounts low high frames held)
    (hlow : 1 ≤ low)
    (hhigh : high < numPageFrames)
    (call : FrameCall) :
    ∃ event next, call.run frames = .ok (event, next) ∧
      Accounts low high next (event.apply held) := by
  cases call with
  | alloc =>
      obtain ⟨address, next, halloc, -, hnext⟩ := h.alloc hlow hhigh
      exact ⟨.handedOut address, next, FrameCall.run_alloc halloc, hnext⟩
  | free address =>
      obtain ⟨next, hfree, -, hnext⟩ := h.free hhigh address.toNat
      exact ⟨.freed address.toNat, next, FrameCall.run_free hfree, hnext⟩

/-- Every sequence of calls runs to its end and keeps the accounts. -/
theorem Accounts.run
    (h : Accounts low high frames held)
    (hlow : 1 ≤ low)
    (hhigh : high < numPageFrames)
    (calls : List FrameCall) :
    ∃ events next, runFrameCalls frames calls = .ok (events, next) ∧
      Accounts low high next (outstanding held events) := by
  induction calls generalizing frames held with
  | nil => exact ⟨[], frames, rfl, h⟩
  | cons call rest ih =>
      obtain ⟨event, middle, hcall, hmiddle⟩ := h.call hlow hhigh call
      obtain ⟨events, next, hrest, hnext⟩ := ih hmiddle
      exact ⟨event :: events, next, runFrameCalls_cons hcall hrest, hnext⟩

/-- The page-frame allocator keeps its accounts: after every sequence of calls
the set bits are the frames outstanding, the counter is their number, the next
allocation hands out the lowest other frame, and no call makes the counter
wrap. -/
theorem pmm_keepsAccounts
    (memLow memHigh : ℕ)
    (hmin : 1 ≤ (pmmInit memLow memHigh).pageFrameMin)
    (hmax : (pmmInit memLow memHigh).pageFrameMax < numPageFrames)
    (calls : List FrameCall) :
    ∃ events frames,
      runFrameCalls (pmmInit memLow memHigh) calls = .ok (events, frames) ∧
      Accounts (pmmInit memLow memHigh).pageFrameMin
        (pmmInit memLow memHigh).pageFrameMax frames
        (outstanding ∅ events) ∧
      (∃ address next, pmmAllocPageFrame frames = .ok (address, next) ∧
        IsLowestFree (pmmInit memLow memHigh).pageFrameMin
          (pmmInit memLow memHigh).pageFrameMax (outstanding ∅ events)
          address) ∧
      ∀ address : UInt32, ∃ next,
        pmmFreePageFrame address.toNat frames = .ok next ∧
          next.totalAlloc ≤ frames.totalAlloc := by
  obtain ⟨events, frames, hrun, haccounts⟩ :=
    (accounts_pmmInit memLow memHigh).run hmin hmax calls
  refine ⟨events, frames, hrun, haccounts, ?_, fun address => ?_⟩
  · obtain ⟨address, next, halloc, hlowest, -⟩ := haccounts.alloc hmin hmax
    exact ⟨address, next, halloc, hlowest⟩
  · obtain ⟨next, hfree, htotal, -⟩ := haccounts.free hmax address.toNat
    exact ⟨next, hfree, htotal⟩

theorem pmm_keepsAccounts_sixteenMegabytes :
    ∃ events frames,
      runFrameCalls (pmmInit 0x300000 0x1000000)
        [.alloc, .alloc, .free 0x300123, .free 0x300123, .free 0x1000000] =
          .ok (events, frames) ∧
      Accounts 0x300 0x1000 frames (outstanding ∅ events) := by
  have hmin : (pmmInit 0x300000 0x1000000).pageFrameMin = 0x300 := by
    decide +kernel
  have hmax : (pmmInit 0x300000 0x1000000).pageFrameMax = 0x1000 := by
    decide +kernel
  obtain ⟨events, frames, hrun, haccounts, -⟩ :=
    pmm_keepsAccounts 0x300000 0x1000000 (by rw [hmin]; norm_num)
      (by rw [hmax]; norm_num [numPageFrames])
      [.alloc, .alloc, .free 0x300123, .free 0x300123, .free 0x1000000]
  rw [hmin, hmax] at haccounts
  exact ⟨events, frames, hrun, haccounts⟩

end ClOs.Memory
