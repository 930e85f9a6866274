import ClOs.FrameRuns

/-!
# The bitmap in flat memory

In C an index past the end of `physical_memory_bitmap` stops nothing: the
access goes on to the data behind it.  Here the bitmap is the beginning of a
memory.  The rest of that memory is the kernel's, which stores there between
two calls and finds there what the allocator has left.  Wherever the
bounds-checked allocator returns, this one gives the same answers.
-/

namespace ClOs.Memory

namespace Flat

/-- `pmm_init`.  Its `memset` ends with the array. -/
def pmmInit (memory : ByteStore) (memLow memHigh : ℕ) : Frames :=
  { Memory.pmmInit memLow memHigh with
    physicalMemoryBitmap := memory.blit 0 (fun _ => 0) (numPageFrames / 8) }

/-- The loop of `pmm_alloc_page_frame` over the next `count` frames. -/
def pmmAllocFrom (frames : Frames) : ℕ → ℕ → ℕ × Frames
  | 0, _ => (0, frames)
  | count + 1, frame =>
      if frames.physicalMemoryBitmap.bit frame then
        pmmAllocFrom frames count (frame + 1)
      else
        (u32 (frame * 0x1000), { frames with
          physicalMemoryBitmap := frames.physicalMemoryBitmap.setBit frame
          totalAlloc := u32 (frames.totalAlloc + 1) })

def pmmAllocPageFrame (frames : Frames) : ℕ × Frames :=
  pmmAllocFrom frames (frames.pageFrameMax - frames.pageFrameMin)
    frames.pageFrameMin

def pmmFreePageFrame (address : ℕ) (frames : Frames) : Frames :=
  let frameIndex := address / 0x1000
  if frameIndex < frames.pageFrameMin ∨ frames.pageFrameMax < frameIndex then
    frames
  else if frames.physicalMemoryBitmap.bit frameIndex then
    { frames with
      totalAlloc := sub32 frames.totalAlloc 1
      physicalMemoryBitmap :=
        frames.physicalMemoryBitmap.clearBit frameIndex }
  else frames

def runCall (frames : Frames) : FrameCall → FrameEvent × Frames
  | .alloc =>
      let (address, next) := pmmAllocPageFrame frames
      (.handedOut address, next)
  | .free address =>
      (.freed address.toNat, pmmFreePageFrame address.toNat frames)

/-- What happens to that memory: a call of the allocator, or a store of the
kernel behind the bitmap. -/
inductive Action
  | call (call : FrameCall)
  | store (offset : ℕ) (value : UInt8)

def Action.run (frames : Frames) : Action → List FrameEvent × Frames
  | .call made =>
      let (event, next) := runCall frames made
      ([event], next)
  | .store offset value =>
      ([], { frames with
        physicalMemoryBitmap := Function.update frames.physicalMemoryBitmap
          (numPageFrames / 8 + offset) value })

def runActions (frames : Frames) : List Action → List FrameEvent × Frames
  | [] => ([], frames)
  | action :: rest =>
      let (events, middle) := action.run frames
      let (later, last) := runActions middle rest
      (events ++ later, last)

def calls : List Action → List FrameCall
  | [] => []
  | .call call :: rest => call :: calls rest
  | .store _ _ :: rest => calls rest

theorem runActions_append (frames : Frames) (first second : List Action) :
    runActions frames (first ++ second) =
      ((runActions frames first).1 ++
          (runActions (runActions frames first).2 second).1,
        (runActions (runActions frames first).2 second).2) := by
  induction first generalizing frames with
  | nil => rfl
  | cons action rest ih => simp [runActions, ih]

/-! ## Against the checked allocator -/

/-- The same range and counter, and the same bits as far as the array goes. -/
structure Extends (flat frames : Frames) : Prop where
  min_eq : flat.pageFrameMin = frames.pageFrameMin
  max_eq : flat.pageFrameMax = frames.pageFrameMax
  total_eq : flat.totalAlloc = frames.totalAlloc
  bit_eq : ∀ frame < numPageFrames,
    flat.physicalMemoryBitmap.bit frame = frames.physicalMemoryBitmap.bit frame

theorem extends_pmmInit (memory : ByteStore) (memLow memHigh : ℕ) :
    Extends (pmmInit memory memLow memHigh)
      (Memory.pmmInit memLow memHigh) where
  min_eq := rfl
  max_eq := rfl
  total_eq := rfl
  bit_eq frame hframe := by
    have hnum : numPageFrames / 8 * 8 = numPageFrames := by
      norm_num [numPageFrames]
    simp only [ByteStore.bit, pmmInit, Memory.pmmInit]
    rw [ByteStore.blit_inside _ _ (Nat.zero_le _) (by omega)]

variable {flat frames next : Frames}

theorem Extends.store
    (h : Extends flat frames) (offset : ℕ) (value : UInt8) :
    Extends (Action.run flat (.store offset value)).2 frames where
  min_eq := h.min_eq
  max_eq := h.max_eq
  total_eq := h.total_eq
  bit_eq frame hframe := by
    have hnum : numPageFrames / 8 * 8 = numPageFrames := by
      norm_num [numPageFrames]
    rw [← h.bit_eq frame hframe]
    simp only [ByteStore.bit, Action.run]
    rw [Function.update_of_ne (by omega)]

theorem Extends.allocFrom
    (h : Extends flat frames) {count frame address : ℕ}
    (halloc : Memory.pmmAllocFrom frames count frame = .ok (address, next)) :
    (pmmAllocFrom flat count frame).1 = address ∧
      Extends (pmmAllocFrom flat count frame).2 next := by
  induction count generalizing frame with
  | zero =>
      simp only [Memory.pmmAllocFrom, Except.ok.injEq, Prod.mk.injEq] at halloc
      obtain ⟨rfl, rfl⟩ := halloc
      exact ⟨rfl, h⟩
  | succ count ih =>
      have hnum : numPageFrames / 8 * 8 = numPageFrames := by
        norm_num [numPageFrames]
      simp only [Memory.pmmAllocFrom] at halloc
      split_ifs at halloc with hbounds hbit
      · rw [pmmAllocFrom, if_pos (by rw [h.bit_eq frame (by omega), hbit])]
        exact ih halloc
      · simp only [Except.ok.injEq, Prod.mk.injEq] at halloc
        obtain ⟨rfl, rfl⟩ := halloc
        rw [pmmAllocFrom, if_neg (by rwa [h.bit_eq frame (by omega)])]
        refine ⟨rfl, h.min_eq, h.max_eq, by rw [h.total_eq], fun f hf => ?_⟩
        simp only [ByteStore.bit_setBit, h.bit_eq f hf]

theorem Extends.free
    (h : Extends flat frames) {address : ℕ}
    (hfree : Memory.pmmFreePageFrame address frames = .ok next) :
    Extends (pmmFreePageFrame address flat) next := by
  have hnum : numPageFrames / 8 * 8 = numPageFrames := by
    norm_num [numPageFrames]
  unfold Memory.pmmFreePageFrame at hfree
  unfold pmmFreePageFrame
  simp only [h.min_eq, h.max_eq] at hfree ⊢
  split_ifs at hfree with hrange hbounds hbit <;>
    simp only [Except.ok.injEq] at hfree <;> subst hfree
  · rwa [if_pos hrange]
  · rw [if_neg hrange, if_pos (by rw [h.bit_eq _ (by omega), hbit])]
    refine ⟨rfl, rfl, by rw [h.total_eq], fun f hf => ?_⟩
    simp only [ByteStore.bit_clearBit, h.bit_eq f hf]
  · rwa [if_neg hrange, if_neg (by rwa [h.bit_eq _ (by omega)])]

theorem Extends.call
    (h : Extends flat frames) {call : FrameCall} {event : FrameEvent}
    (hcall : call.run frames = .ok (event, next)) :
    (runCall flat call).1 = event ∧ Extends (runCall flat call).2 next := by
  cases call with
  | alloc =>
      simp only [FrameCall.run] at hcall
      rw [Outcome.bind_eq_ok] at hcall
      obtain ⟨⟨address, allocated⟩, halloc, hcall⟩ := hcall
      simp only [pure, Except.pure, Except.ok.injEq, Prod.mk.injEq] at hcall
      obtain ⟨rfl, rfl⟩ := hcall
      unfold Memory.pmmAllocPageFrame at halloc
      rw [← h.min_eq, ← h.max_eq] at halloc
      obtain ⟨haddress, hnext⟩ := h.allocFrom halloc
      exact ⟨by rw [← haddress]; rfl, hnext⟩
  | free address =>
      simp only [FrameCall.run] at hcall
      rw [Outcome.bind_eq_ok] at hcall
      obtain ⟨released, hfree, hcall⟩ := hcall
      simp only [pure, Except.pure, Except.ok.injEq, Prod.mk.injEq] at hcall
      obtain ⟨rfl, rfl⟩ := hcall
      exact ⟨rfl, h.free hfree⟩

/-- A run of the checked allocator, with any stores of the kernel between its
calls. -/
theorem Extends.run
    (h : Extends flat frames) {actions : List Action}
    {events : List FrameEvent}
    (hrun : runFrameCalls frames (calls actions) = .ok (events, next)) :
    (runActions flat actions).1 = events ∧
      Extends (runActions flat actions).2 next := by
  induction actions generalizing flat frames events with
  | nil =>
      simp only [calls, runFrameCalls, pure, Except.pure, Except.ok.injEq,
        Prod.mk.injEq] at hrun
      obtain ⟨rfl, rfl⟩ := hrun
      exact ⟨rfl, h⟩
  | cons action rest ih =>
      cases action with
      | call call =>
          simp only [calls, runFrameCalls] at hrun
          rw [Outcome.bind_eq_ok] at hrun
          obtain ⟨⟨event, middle⟩, hcall, hrun⟩ := hrun
          rw [Outcome.bind_eq_ok] at hrun
          obtain ⟨⟨later, last⟩, hrest, hrun⟩ := hrun
          simp only [pure, Except.pure, Except.ok.injEq,
            Prod.mk.injEq] at hrun
          obtain ⟨rfl, rfl⟩ := hrun
          obtain ⟨hevent, hmiddle⟩ := h.call hcall
          obtain ⟨hlater, hlast⟩ := ih hmiddle hrest
          exact ⟨by simp [runActions, Action.run, hevent, hlater], hlast⟩
      | store offset value => exact ih (h.store offset value) hrun

/-! ## What is handed out -/

theorem pmmAllocFrom_spec (frames : Frames) (count frame : ℕ) :
    pmmAllocFrom frames count frame = (0, frames) ∨
      ∃ taken, frame ≤ taken ∧ taken < frame + count ∧
        frames.physicalMemoryBitmap.bit taken = false ∧
        pmmAllocFrom frames count frame =
          (u32 (taken * 0x1000), { frames with
            physicalMemoryBitmap := frames.physicalMemoryBitmap.setBit taken
            totalAlloc := u32 (frames.totalAlloc + 1) }) := by
  induction count generalizing frame with
  | zero => exact .inl rfl
  | succ count ih =>
      simp only [pmmAllocFrom]
      split_ifs with hbit
      · rcases ih (frame + 1) with hnone | ⟨taken, hlow, hhigh, hrest⟩
        · exact .inl hnone
        · exact .inr ⟨taken, by omega, by omega, hrest⟩
      · exact .inr ⟨frame, le_rfl, by omega, by simpa using hbit, rfl⟩

/-- The next allocation takes the first clear frame. -/
theorem pmmAllocFrom_taken
    {count frame taken : ℕ}
    (hlow : frame ≤ taken)
    (hhigh : taken < frame + count)
    (hclear : frames.physicalMemoryBitmap.bit taken = false)
    (hbefore : ∀ f, frame ≤ f → f < taken →
      frames.physicalMemoryBitmap.bit f = true) :
    pmmAllocFrom frames count frame =
      (u32 (taken * 0x1000), { frames with
        physicalMemoryBitmap := frames.physicalMemoryBitmap.setBit taken
        totalAlloc := u32 (frames.totalAlloc + 1) }) := by
  induction count generalizing frame with
  | zero => omega
  | succ count ih =>
      rw [pmmAllocFrom]
      rcases Nat.eq_or_lt_of_le hlow with rfl | hlater
      · rw [if_neg (by simp [hclear])]
      · rw [if_pos (hbefore frame le_rfl hlater)]
        exact ih hlater (by omega)
          (fun f hf hf' => hbefore f (by omega) hf')

theorem handedOut_inRange
    {actions : List Action} {address : ℕ}
    (hmax : frames.pageFrameMax ≤ 0x100000)
    (hmem : .handedOut address ∈ (runActions frames actions).1)
    (hne : address ≠ 0) :
    ∃ frame, frames.pageFrameMin ≤ frame ∧ frame < frames.pageFrameMax ∧
      address = frame * 0x1000 := by
  induction actions generalizing frames with
  | nil => simp [runActions] at hmem
  | cons action rest ih =>
      have hstep : (action.run frames).2.pageFrameMin =
            frames.pageFrameMin ∧
          (action.run frames).2.pageFrameMax = frames.pageFrameMax ∧
            (.handedOut address ∈ (action.run frames).1 → ∃ frame,
              frames.pageFrameMin ≤ frame ∧ frame < frames.pageFrameMax ∧
                address = frame * 0x1000) := by
        cases action with
        | store offset value =>
            exact ⟨rfl, rfl, fun h => by simp [Action.run] at h⟩
        | call call =>
            cases call with
            | alloc =>
                simp only [Action.run, runCall, pmmAllocPageFrame]
                rcases pmmAllocFrom_spec frames
                    (frames.pageFrameMax - frames.pageFrameMin)
                    frames.pageFrameMin with
                  hnone | ⟨taken, hlow, hhigh, -, htaken⟩
                · rw [hnone]
                  refine ⟨rfl, rfl, fun h => ?_⟩
                  simp only [List.mem_singleton,
                    FrameEvent.handedOut.injEq] at h
                  exact absurd h hne
                · rw [htaken]
                  refine ⟨rfl, rfl, fun h => ?_⟩
                  simp only [List.mem_singleton,
                    FrameEvent.handedOut.injEq] at h
                  exact ⟨taken, hlow, by omega,
                    h.trans (u32_of_lt (by omega))⟩
            | free freed =>
                simp only [Action.run, runCall, pmmFreePageFrame]
                split_ifs <;> exact ⟨rfl, rfl, fun h => by simp at h⟩
      obtain ⟨hmin', hmax', hhanded⟩ := hstep
      simp only [runActions, List.mem_append] at hmem
      rcases hmem with hfirst | hlater
      · exact hhanded hfirst
      · rw [← hmin', ← hmax']
        exact ih (by rw [hmax']; exact hmax) hlater

/-- On a clear memory, as many allocations as there are frames below another
one hand them all out. -/
theorem alloc_repeated
    {low n : ℕ}
    (hlow : frames.pageFrameMin = low)
    (hrange : low + n ≤ frames.pageFrameMax)
    (hclear : ∀ f, frames.physicalMemoryBitmap.bit f = false) :
    ∃ last, (runActions frames (List.replicate n (.call .alloc))).2 = last ∧
      last.pageFrameMin = low ∧ last.pageFrameMax = frames.pageFrameMax ∧
      ∀ f, last.physicalMemoryBitmap.bit f = true ↔ low ≤ f ∧ f < low + n := by
  induction n with
  | zero =>
      refine ⟨frames, rfl, hlow, rfl, fun f => ?_⟩
      rw [hclear]
      constructor
      · intro h
        cases h
      · intro h
        omega
  | succ n ih =>
      obtain ⟨last, hrun, hmin, hmax, hbits⟩ := ih (by omega)
      have hfresh : last.physicalMemoryBitmap.bit (low + n) = false := by
        rw [Bool.eq_false_iff, ne_eq, hbits]
        omega
      have halloc : pmmAllocPageFrame last = (u32 ((low + n) * 0x1000),
          { last with
            physicalMemoryBitmap :=
              last.physicalMemoryBitmap.setBit (low + n)
            totalAlloc := u32 (last.totalAlloc + 1) }) := by
        apply pmmAllocFrom_taken (by omega) (by omega) hfresh
        intro f hf hf'
        exact (hbits f).2 ⟨by omega, hf'⟩
      rw [List.replicate_succ', runActions_append, hrun]
      simp only [runActions, Action.run, runCall, halloc]
      refine ⟨_, rfl, hmin, hmax, fun f => ?_⟩
      simp only [ByteStore.bit_setBit, Bool.or_eq_true, decide_eq_true_eq,
        hbits]
      omega

theorem handedOut_all
    {frame : ℕ}
    (hlow : frames.pageFrameMin ≤ frame)
    (hhigh : frame < frames.pageFrameMax)
    (hmax : frames.pageFrameMax ≤ 0x100000)
    (hclear : ∀ f, frames.physicalMemoryBitmap.bit f = false) :
    .handedOut (frame * 0x1000) ∈ (runActions frames
      (List.replicate (frame - frames.pageFrameMin + 1)
        (.call .alloc))).1 := by
  obtain ⟨last, hrun, hmin, hmax', hbits⟩ :=
    @alloc_repeated frames _ (frame - frames.pageFrameMin) rfl (by omega)
      hclear
  have hfresh : last.physicalMemoryBitmap.bit frame = false := by
    rw [Bool.eq_false_iff, ne_eq, hbits]
    omega
  have halloc := @pmmAllocFrom_taken last
    (last.pageFrameMax - last.pageFrameMin) last.pageFrameMin frame
    (by omega) (by omega) hfresh
    (fun f hf hf' => (hbits f).2 ⟨by omega, by omega⟩)
  rw [u32_of_lt (by omega)] at halloc
  rw [List.replicate_succ', runActions_append, hrun]
  simp [runActions, Action.run, runCall, pmmAllocPageFrame, halloc]

end Flat

end ClOs.Memory
