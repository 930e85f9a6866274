import ClOs.Disk
import ClOs.FlatFrames
import ClOs.PageTables

/-!
# Physical memory at boot

`kmain` folds the memory map of the boot loader into one number, `mem_high`,
and `init_memory` gives the page-frame allocator all frames from the end of the
kernel up to there.
-/

namespace ClOs.Memory

open ByteStore

/-! ## `kmain` -/

def multibootMemoryAvailable : ℕ := 1

/-- The loop of `kmain` over the memory map.  It sees no entry twice unless it
is endless. -/
def scanMmap (mem : ByteStore) (stop : ℕ) : ℕ → ℕ → ℕ → Outcome ℕ
  | 0, _, _ => .error .endless
  | fuel + 1, mmap, memHigh =>
      if mmap < stop then
        let endAddr := u32 (mem.le32 (mmap + 4) + mem.le32 (mmap + 12))
        scanMmap mem stop fuel (u32 (mmap + mem.le32 mmap + 4))
          (if mem.le32 (mmap + 20) = multibootMemoryAvailable then
            if memHigh < endAddr then endAddr else memHigh
          else memHigh)
      else .ok memHigh

/-- The memory map of the `multiboot_info_t` at `bootInfo`, if there is one,
gives the first value of `mem_high`. -/
def scanBootInfo (mem : ByteStore) (bootInfo : ℕ) : Outcome ℕ :=
  if (mem.le32 bootInfo).testBit 6 then
    let mmapAddr := mem.le32 (bootInfo + 48)
    let stop := u32 (mmapAddr + mem.le32 (bootInfo + 44))
    scanMmap mem stop (stop + 1) mmapAddr 0
  else .ok 0

/-- `mem_high` as `kmain` passes it to `init_memory`. -/
def kmainMemHigh (mem : ByteStore) (bootInfo : ℕ) : Outcome ℕ := do
  let memHigh ← scanBootInfo mem bootInfo
  return if memHigh = 0 then 0x10000000 else memHigh

def kernelEndPhys (kernelEnd : ℕ) : ℕ := sub32 kernelEnd kernelStart

def physicalAllocStart (kernelEnd : ℕ) : ℕ :=
  u32 (kernelEndPhys kernelEnd + 0x1000) &&& pageFlagFrame

/-- The call of `pmm_init` that `kmain` makes through `init_memory`. -/
def bootFrames (kernelEnd memHigh : ℕ) : Frames :=
  pmmInit (physicalAllocStart kernelEnd) memHigh

theorem scanMmap_lt
    {mem : ByteStore} {stop fuel mmap memHigh result : ℕ}
    (hstart : memHigh < 4294967296)
    (hscan : scanMmap mem stop fuel mmap memHigh = .ok result) :
    result < 4294967296 := by
  induction fuel generalizing mmap memHigh with
  | zero => simp [scanMmap] at hscan
  | succ fuel ih =>
      simp only [scanMmap] at hscan
      split_ifs at hscan with hinside havailable hlarger
      · exact ih (u32_lt _) hscan
      · exact ih hstart hscan
      · exact ih hstart hscan
      · simp only [Except.ok.injEq] at hscan
        omega

theorem kmainMemHigh_lt
    {mem : ByteStore} {bootInfo memHigh : ℕ}
    (h : kmainMemHigh mem bootInfo = .ok memHigh) :
    memHigh < 4294967296 := by
  unfold kmainMemHigh at h
  rw [Outcome.bind_eq_ok] at h
  obtain ⟨top, htop, h⟩ := h
  have hlt : top < 4294967296 := by
    unfold scanBootInfo at htop
    split_ifs at htop
    · exact scanMmap_lt (by norm_num) htop
    · simp only [Except.ok.injEq] at htop
      omega
  simp only [pure, Except.pure, Except.ok.injEq] at h
  split_ifs at h <;> omega

/-- Clearing the low twelve bits. -/
theorem and_pageFlagFrame {n : ℕ} (hn : n < 4294967296) :
    n &&& pageFlagFrame = n / 0x1000 * 0x1000 := by
  have hmask : pageFlagFrame = (2 ^ 20 - 1) <<< 12 := by decide
  have hsplit : n / 0x1000 * 0x1000 = (n >>> 12) <<< 12 := by
    rw [Nat.shiftRight_eq_div_pow, Nat.shiftLeft_eq]
  rw [hmask, hsplit]
  apply Nat.eq_of_testBit_eq
  intro i
  rw [Nat.testBit_and, Nat.testBit_shiftLeft, Nat.testBit_shiftLeft,
    Nat.testBit_shiftRight, Nat.testBit_two_pow_sub_one]
  rcases Nat.lt_or_ge i 12 with hlow | hge
  · simp [Nat.not_le.2 hlow]
  · rcases Nat.lt_or_ge i 32 with hmid | hhigh
    · simp [hge, show i - 12 < 20 by omega]
    · have hzero : n.testBit i = false :=
        Nat.testBit_lt_two_pow (lt_of_lt_of_le hn (by
          rw [show (4294967296 : ℕ) = 2 ^ 32 by norm_num]
          exact Nat.pow_le_pow_right (by norm_num) hhigh))
      simp [hge, hzero]

theorem bootFrames_min
    {kernelEnd : ℕ} (memHigh : ℕ)
    (hlow : kernelStart ≤ kernelEnd) (hhigh : kernelEnd < 4294967296) :
    (bootFrames kernelEnd memHigh).pageFrameMin =
        (kernelEnd - kernelStart) / 0x1000 + 1 ∧
      kernelEndPhys kernelEnd = kernelEnd - kernelStart := by
  have hstart : kernelStart = 3221225472 := rfl
  have hend : kernelEndPhys kernelEnd = kernelEnd - kernelStart :=
    sub32_of_le hlow hhigh
  refine ⟨?_, hend⟩
  simp only [bootFrames, pmmInit, physicalAllocStart, hend]
  rw [u32_of_lt (by omega), and_pageFlagFrame (by omega), ceilDiv,
    u32_of_lt (by omega), sub32_of_le (by omega) (by omega)]
  omega

/-! ## Accesses to the bitmap -/

theorem FrameCall.run_inBounds
    {frames : Frames}
    (h : frames.pageFrameMax < numPageFrames ∨
      frames.pageFrameMax < frames.pageFrameMin)
    (call : FrameCall) :
    ∃ event next, call.run frames = .ok (event, next) ∧
      next.pageFrameMin = frames.pageFrameMin ∧
        next.pageFrameMax = frames.pageFrameMax := by
  cases call with
  | alloc =>
      have halloc : ∃ address next,
          pmmAllocPageFrame frames = .ok (address, next) ∧
            next.pageFrameMin = frames.pageFrameMin ∧
              next.pageFrameMax = frames.pageFrameMax := by
        unfold pmmAllocPageFrame
        rcases Nat.lt_or_ge frames.pageFrameMax frames.pageFrameMin with
          hempty | hrange
        · rw [Nat.sub_eq_zero_of_le hempty.le]
          exact ⟨0, frames, rfl, rfl, rfl⟩
        · rcases pmmAllocFrom_first frames
              (frames.pageFrameMax - frames.pageFrameMin)
              frames.pageFrameMin (by omega) with
            ⟨-, hnone⟩ | ⟨taken, -, -, -, -, htaken⟩
          · exact ⟨0, frames, hnone, rfl, rfl⟩
          · exact ⟨_, _, htaken, rfl, rfl⟩
      obtain ⟨address, next, hrun, hmin, hmax⟩ := halloc
      exact ⟨.handedOut address, next, FrameCall.run_alloc hrun, hmin, hmax⟩
  | free address =>
      have hfree : ∃ next,
          pmmFreePageFrame address.toNat frames = .ok next ∧
            next.pageFrameMin = frames.pageFrameMin ∧
              next.pageFrameMax = frames.pageFrameMax := by
        have hnum : numPageFrames / 8 * 8 = numPageFrames := by
          norm_num [numPageFrames]
        unfold pmmFreePageFrame
        simp only
        split_ifs with hrange hbounds hbit
        · exact ⟨frames, rfl, rfl, rfl⟩
        · omega
        · exact ⟨_, rfl, rfl, rfl⟩
        · exact ⟨frames, rfl, rfl, rfl⟩
      obtain ⟨next, hrun, hmin, hmax⟩ := hfree
      exact ⟨.freed address.toNat, next, FrameCall.run_free hrun, hmin, hmax⟩

theorem runFrameCalls_inBounds
    {frames : Frames}
    (h : frames.pageFrameMax < numPageFrames ∨
      frames.pageFrameMax < frames.pageFrameMin)
    (calls : List FrameCall) :
    ∃ events next, runFrameCalls frames calls = .ok (events, next) := by
  induction calls generalizing frames with
  | nil => exact ⟨[], frames, rfl⟩
  | cons call rest ih =>
      obtain ⟨event, middle, hcall, hmin, hmax⟩ := call.run_inBounds h
      obtain ⟨events, next, hrest⟩ := ih (by rwa [hmin, hmax])
      exact ⟨event :: events, next, runFrameCalls_cons hcall hrest⟩

/-- Freeing the frame at the upper bound leaves a bitmap that ends there. -/
theorem free_overrun
    {frames : Frames} {address : UInt32}
    (hframe : address.toNat / 0x1000 = frames.pageFrameMax)
    (hrange : frames.pageFrameMin ≤ frames.pageFrameMax)
    (hbound : numPageFrames ≤ frames.pageFrameMax) :
    runFrameCalls frames [.free address] = .error .outOfBounds := by
  have hinside : ¬(frames.pageFrameMax < frames.pageFrameMin ∨
      frames.pageFrameMax < frames.pageFrameMax) := by omega
  have hover : numPageFrames / 8 ≤ frames.pageFrameMax / 8 :=
    Nat.div_le_div_right hbound
  simp only [runFrameCalls, FrameCall.run, pmmFreePageFrame, hframe, hinside,
    hover, if_false, if_true, bind, Except.bind]

/-- For the memory that `kmain` sets up, every sequence of calls stays inside
the bitmap exactly if `mem_high` is below 256 MiB or below the first frame. -/
theorem bitmap_inBounds_iff
    {mem : ByteStore} {bootInfo kernelEnd memHigh : ℕ}
    (hlow : kernelStart ≤ kernelEnd)
    (hhigh : kernelEnd < 4294967296)
    (hmem : kmainMemHigh mem bootInfo = .ok memHigh) :
    (∀ calls, runFrameCalls (bootFrames kernelEnd memHigh) calls ≠
        .error .outOfBounds) ↔
      memHigh < 0x10000000 ∨
        memHigh / 0x1000 < (kernelEnd - kernelStart) / 0x1000 + 1 := by
  have hlt := kmainMemHigh_lt hmem
  have hnum : numPageFrames = 65536 := by norm_num [numPageFrames]
  have hmin := (bootFrames_min memHigh hlow hhigh).1
  have hmax : (bootFrames kernelEnd memHigh).pageFrameMax =
      memHigh / 0x1000 := rfl
  constructor
  · intro hsafe
    by_contra hcondition
    have haddress : (UInt32.ofNat (memHigh / 0x1000 * 0x1000)).toNat =
        memHigh / 0x1000 * 0x1000 := by
      rw [UInt32.toNat_ofNat']
      exact Nat.mod_eq_of_lt (by norm_num; omega)
    apply hsafe [.free (UInt32.ofNat (memHigh / 0x1000 * 0x1000))]
    apply free_overrun
    · rw [haddress, hmax]
      exact Nat.mul_div_cancel _ (by norm_num)
    · omega
    · omega
  · intro hcondition calls
    obtain ⟨events, next, hrun⟩ := @runFrameCalls_inBounds
      (bootFrames kernelEnd memHigh) (by omega) calls
    rw [hrun]
    simp

theorem bitmap_inBounds_iff_default :
    kmainMemHigh (fun _ => 0) 0 = .ok 0x10000000 ∧
      ((∀ calls, runFrameCalls (bootFrames 0xC0200000 0x10000000) calls ≠
          .error .outOfBounds) ↔
        (0x10000000 : ℕ) < 0x10000000 ∨
          (0x10000000 : ℕ) / 0x1000 <
            (0xC0200000 - kernelStart) / 0x1000 + 1) := by
  have hmem : kmainMemHigh (fun _ => 0) 0 = .ok 0x10000000 := by
    have htest : (kmainMemHigh (fun _ => 0) 0).satisfies
        (fun memHigh => memHigh = 0x10000000) = true := by
      decide +kernel
    obtain ⟨memHigh, hmem, hvalue⟩ := Outcome.exists_of_satisfies htest
    rw [hmem, of_decide_eq_true hvalue]
  exact ⟨hmem, bitmap_inBounds_iff (by decide) (by norm_num) hmem⟩

/-- Without a memory map `mem_high` is 256 MiB, and the frame there can be
freed but has no bit. -/
theorem pmmFreePageFrame_pastBitmap :
    kmainMemHigh (fun _ => 0) 0 = .ok 0x10000000 ∧
      runFrameCalls (bootFrames 0xC0200000 0x10000000)
        [.free 0x10000000] = .error .outOfBounds := by
  have htest : (kmainMemHigh (fun _ => 0) 0).satisfies
      (fun memHigh => memHigh = 0x10000000) = true := by
    decide +kernel
  obtain ⟨memHigh, hmem, hvalue⟩ := Outcome.exists_of_satisfies htest
  refine ⟨by rw [hmem, of_decide_eq_true hvalue], ?_⟩
  have hmin := (@bootFrames_min 0xC0200000 0x10000000
    (by decide) (by norm_num)).1
  apply free_overrun
  · decide +kernel
  · rw [hmin]
    decide +kernel
  · decide +kernel

/-! ## Available memory -/

/-- An entry of the memory map as the boot loader means it. -/
structure MmapEntry where
  size : UInt32
  base : UInt64
  length : UInt64
  type : UInt32

def MmapEntry.isAvailable (entry : MmapEntry) : Bool :=
  entry.type.toNat = multibootMemoryAvailable

/-- The map stands in memory from one address to another. -/
inductive HoldsMmap (mem : ByteStore) :
    ℕ → List MmapEntry → ℕ → Prop
  | nil (address : ℕ) : HoldsMmap mem address [] address
  | cons {address stop : ℕ} {entry : MmapEntry} {rest : List MmapEntry}
      (hsize : mem.le32 address = entry.size.toNat)
      (hbaseLow : mem.le32 (address + 4) = entry.base.toNat % 4294967296)
      (hbaseHigh : mem.le32 (address + 8) = entry.base.toNat / 4294967296)
      (hlengthLow :
        mem.le32 (address + 12) = entry.length.toNat % 4294967296)
      (hlengthHigh :
        mem.le32 (address + 16) = entry.length.toNat / 4294967296)
      (htype : mem.le32 (address + 20) = entry.type.toNat)
      (hrest : HoldsMmap mem (address + entry.size.toNat + 4) rest stop) :
      HoldsMmap mem address (entry :: rest) stop

/-- The `multiboot_info_t` at an address says where the map stands. -/
structure BootMap (mem : ByteStore) (bootInfo : ℕ)
    (entries : List MmapEntry) : Prop where
  flagged : (mem.le32 bootInfo).testBit 6 = true
  inside : mem.le32 (bootInfo + 48) + mem.le32 (bootInfo + 44) < 4294967296
  holds : HoldsMmap mem (mem.le32 (bootInfo + 48)) entries
    (mem.le32 (bootInfo + 48) + mem.le32 (bootInfo + 44))

/-- Where `kmain` takes an available region to end. -/
def MmapEntry.endAddr (entry : MmapEntry) : ℕ :=
  u32 (entry.base.toNat % 4294967296 + entry.length.toNat % 4294967296)

/-- The highest such end, 256 MiB if there is none. -/
def mmapTop (entries : List MmapEntry) : ℕ :=
  let top := ((entries.filter MmapEntry.isAvailable).map
    MmapEntry.endAddr).foldl max 0
  if top = 0 then 0x10000000 else top

/-- The page at an address lies in one available region. -/
def InAvailable (entries : List MmapEntry) (address : ℕ) : Prop :=
  ∃ entry ∈ entries, entry.isAvailable = true ∧
    entry.base.toNat ≤ address ∧
      address + 0x1000 ≤ entry.base.toNat + entry.length.toNat

theorem HoldsMmap.le_stop
    {mem : ByteStore} {address stop : ℕ} {entries : List MmapEntry}
    (h : HoldsMmap mem address entries stop) : address ≤ stop := by
  induction h with
  | nil address => exact le_rfl
  | cons _ _ _ _ _ _ _ ih => omega

theorem scanMmap_eq
    {mem : ByteStore} {address stop fuel memHigh : ℕ}
    {entries : List MmapEntry}
    (h : HoldsMmap mem address entries stop)
    (hstop : stop < 4294967296)
    (hfuel : stop - address < fuel) :
    scanMmap mem stop fuel address memHigh =
      .ok (((entries.filter MmapEntry.isAvailable).map
        MmapEntry.endAddr).foldl max memHigh) := by
  induction h generalizing fuel memHigh with
  | nil address =>
      obtain ⟨fuel, rfl⟩ : ∃ n, fuel = n + 1 := ⟨fuel - 1, by omega⟩
      simp [scanMmap]
  | @cons address stop entry rest hsize hbaseLow _ hlengthLow _ htype hrest
      ih =>
      obtain ⟨fuel, rfl⟩ : ∃ n, fuel = n + 1 := ⟨fuel - 1, by omega⟩
      have hle := hrest.le_stop
      have hinside : address < stop := by omega
      have hnext : u32 (address + mem.le32 address + 4) =
          address + entry.size.toNat + 4 := by
        rw [hsize, u32_of_lt (by omega)]
      have hend : u32 (mem.le32 (address + 4) + mem.le32 (address + 12)) =
          entry.endAddr := by
        rw [hbaseLow, hlengthLow]
        rfl
      simp only [scanMmap, hinside, if_true, hnext, hend, htype]
      rw [ih hstop (by omega)]
      cases havailable : entry.isAvailable with
      | false =>
          have hne : entry.type.toNat ≠ multibootMemoryAvailable := by
            simpa [MmapEntry.isAvailable] using havailable
          simp [hne, havailable]
      | true =>
          have heq : entry.type.toNat = multibootMemoryAvailable := by
            simpa [MmapEntry.isAvailable] using havailable
          have hmax : (if memHigh < entry.endAddr then entry.endAddr
              else memHigh) = max memHigh entry.endAddr := by
            rw [max_def]
            split_ifs <;> omega
          simp [heq, havailable, hmax]

theorem kmainMemHigh_eq
    {mem : ByteStore} {bootInfo : ℕ} {entries : List MmapEntry}
    (h : BootMap mem bootInfo entries) :
    kmainMemHigh mem bootInfo = .ok (mmapTop entries) := by
  have hscan := @scanMmap_eq mem _ _
    (mem.le32 (bootInfo + 48) + mem.le32 (bootInfo + 44) + 1) 0 entries
    h.holds h.inside (by omega)
  have hinfo : scanBootInfo mem bootInfo =
      .ok (((entries.filter MmapEntry.isAvailable).map
        MmapEntry.endAddr).foldl max 0) := by
    unfold scanBootInfo
    rw [if_pos h.flagged]
    simp only
    rw [u32_of_lt h.inside, hscan]
  simp [kmainMemHigh, hinfo, mmapTop, bind, Except.bind, pure, Except.pure]

/-- The same call of `pmm_init`, before the memory that begins with the
bitmap. -/
def bootFlat (kernelEnd memHigh : ℕ) (memory : ByteStore) : Frames :=
  Flat.pmmInit memory (physicalAllocStart kernelEnd) memHigh

/-- The allocator hands out available memory alone, whatever the kernel keeps
behind the bitmap, exactly if every page from the end of the kernel up to the
top that `kmain` computes is available. -/
theorem handedOut_available_iff
    {mem : ByteStore} {bootInfo kernelEnd memHigh : ℕ}
    {entries : List MmapEntry}
    (hlow : kernelStart ≤ kernelEnd)
    (hhigh : kernelEnd < 4294967296)
    (hmap : BootMap mem bootInfo entries)
    (hmem : kmainMemHigh mem bootInfo = .ok memHigh) :
    (∀ memory actions address,
      .handedOut address ∈
        (Flat.runActions (bootFlat kernelEnd memHigh memory) actions).1 →
      address ≠ 0 →
        InAvailable entries address ∧ kernelEndPhys kernelEnd ≤ address) ↔
      ∀ frame, (kernelEnd - kernelStart) / 0x1000 < frame →
        frame < mmapTop entries / 0x1000 →
          InAvailable entries (frame * 0x1000) := by
  obtain ⟨hfirst, hend⟩ := bootFrames_min memHigh hlow hhigh
  have hmin : ∀ memory, (bootFlat kernelEnd memHigh memory).pageFrameMin =
      (kernelEnd - kernelStart) / 0x1000 + 1 := fun _ => hfirst
  have hmax : ∀ memory, (bootFlat kernelEnd memHigh memory).pageFrameMax =
      memHigh / 0x1000 := fun _ => rfl
  have hlt := kmainMemHigh_lt hmem
  have htop : memHigh = mmapTop entries := by
    have heq := kmainMemHigh_eq hmap
    rw [hmem] at heq
    simpa using heq
  constructor
  · intro hsafe frame hbehind hbelow
    have hclear : ∀ f, (bootFlat kernelEnd memHigh
        fun _ => 0).physicalMemoryBitmap.bit f = false := by
      intro f
      simp [bootFlat, Flat.pmmInit, ByteStore.bit, ByteStore.blit]
    have hhanded := @Flat.handedOut_all (bootFlat kernelEnd memHigh
      fun _ => 0) frame (by rw [hmin]; omega) (by rw [hmax]; omega)
      (by rw [hmax]; omega) hclear
    exact (hsafe _ _ _ hhanded (by omega)).1
  · intro hcondition memory actions address hhanded hne
    obtain ⟨frame, hfrom, hto, rfl⟩ := Flat.handedOut_inRange
      (by rw [hmax]; omega) hhanded hne
    rw [hmin] at hfrom
    rw [hmax] at hto
    refine ⟨hcondition frame (by omega) (by omega), ?_⟩
    rw [hend]
    omega

/-! ## A map with a hole -/

/-- Two available regions, from 1 to 3 MiB and from 4 to 8 MiB. -/
def holeMap : List MmapEntry :=
  [{ size := 20, base := 0x100000, length := 0x200000, type := 1 },
    { size := 20, base := 0x400000, length := 0x400000, type := 1 }]

def holeMem : ByteStore :=
  ofWords [(0x9000, 0x40), (0x902C, 48), (0x9030, 0x9100),
    (0x9100, 20), (0x9104, 0x100000), (0x910C, 0x200000), (0x9114, 1),
    (0x9118, 20), (0x911C, 0x400000), (0x9124, 0x400000), (0x912C, 1)]

theorem bootMap_hole : BootMap holeMem 0x9000 holeMap := by
  have haddr : holeMem.le32 (0x9000 + 48) = 0x9100 := by decide +kernel
  have hlength : holeMem.le32 (0x9000 + 44) = 48 := by decide +kernel
  refine ⟨by decide +kernel, by rw [haddr, hlength]; norm_num, ?_⟩
  rw [haddr, hlength]
  refine .cons (by decide +kernel) (by decide +kernel) (by decide +kernel)
    (by decide +kernel) (by decide +kernel) (by decide +kernel) ?_
  refine .cons (by decide +kernel) (by decide +kernel) (by decide +kernel)
    (by decide +kernel) (by decide +kernel) (by decide +kernel) ?_
  exact .nil (0x9100 + 48)

theorem mmapTop_hole : mmapTop holeMap = 0x800000 := by decide +kernel

theorem handedOut_available_iff_hole :
    kmainMemHigh holeMem 0x9000 = .ok 0x800000 ∧
      ((∀ memory actions address,
        .handedOut address ∈
          (Flat.runActions (bootFlat 0xC02FF800 0x800000 memory) actions).1 →
        address ≠ 0 →
          InAvailable holeMap address ∧
            kernelEndPhys 0xC02FF800 ≤ address) ↔
        ∀ frame, (0xC02FF800 - kernelStart) / 0x1000 < frame →
          frame < mmapTop holeMap / 0x1000 →
            InAvailable holeMap (frame * 0x1000)) := by
  have hmem : kmainMemHigh holeMem 0x9000 = .ok 0x800000 := by
    rw [kmainMemHigh_eq bootMap_hole, mmapTop_hole]
  exact ⟨hmem, handedOut_available_iff (by decide) (by norm_num)
    bootMap_hole hmem⟩

/-- With the kernel up to the end of the first region, the first frame handed
out lies in the hole. -/
theorem handedOut_hole :
    BootMap holeMem 0x9000 holeMap ∧
      kmainMemHigh holeMem 0x9000 = .ok 0x800000 ∧
      (∀ memory, .handedOut 0x300000 ∈ (Flat.runActions
        (bootFlat 0xC02FF800 0x800000 memory) [.call .alloc]).1) ∧
      ¬InAvailable holeMap 0x300000 := by
  refine ⟨bootMap_hole, by rw [kmainMemHigh_eq bootMap_hole, mmapTop_hole],
    fun memory => ?_, ?_⟩
  · have htest : (runFrameCalls (bootFrames 0xC02FF800 0x800000)
        [.alloc]).satisfies (fun result =>
          .handedOut 0x300000 ∈ result.1) = true := by
      decide +kernel
    obtain ⟨⟨events, frames⟩, hrun, hhanded⟩ :=
      Outcome.exists_of_satisfies htest
    -- the scan ends inside the bitmap, so what lies behind it has no part
    obtain ⟨hevents, -⟩ := @Flat.Extends.run _ _ _
      (Flat.extends_pmmInit memory (physicalAllocStart 0xC02FF800) 0x800000)
      [.call .alloc] _ hrun
    unfold bootFlat
    rw [hevents]
    exact of_decide_eq_true hhanded
  · rintro ⟨entry, hentry, -, hbase, hend⟩
    have hall : ∀ entry ∈ holeMap, 0x300000 < entry.base.toNat ∨
        entry.base.toNat + entry.length.toNat < 0x301000 := by
      decide +kernel
    rcases hall entry hentry with hfar | hshort <;> omega

end ClOs.Memory
