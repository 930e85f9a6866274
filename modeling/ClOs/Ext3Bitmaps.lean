import ClOs.Ext3Reading

/-!
# Taking and returning bits

`find_free_inode` and `find_free_block` take the first usable clear bit of the
first group whose descriptor counts something free.  `free_block` clears the
bit at which the driver places a block.
-/

namespace ClOs.Ext3

open ByteStore

/-! ## The scan of one bitmap -/

theorem scanBitmap_some
    {buffer : Buffer} {usable : ℕ → Bool} {count i found : ℕ}
    (hscan : scanBitmap buffer usable count i = .ok (some found)) :
    i ≤ found ∧ found < i + count ∧
      buffer.bytes.bit found = false ∧ usable found = true ∧
        ∀ j, i ≤ j → j < found →
          buffer.bytes.bit j = true ∨ usable j = false := by
  induction count generalizing i with
  | zero => simp [scanBitmap, pure, Except.pure] at hscan
  | succ count ih =>
      simp only [scanBitmap] at hscan
      rw [Outcome.bind_eq_ok] at hscan
      obtain ⟨byte, hbyte, hrest⟩ := hscan
      have hbit : byte.testBit (i % 8) = buffer.bytes.bit i := by
        rw [← (Buffer.get8_eq_ok.1 hbyte).2]
        rfl
      rw [hbit] at hrest
      split_ifs at hrest with hskip
      · obtain ⟨hlow, hhigh, hclear, husable, hbefore⟩ := ih hrest
        refine ⟨by omega, by omega, hclear, husable, fun j hj hjf => ?_⟩
        rcases Nat.eq_or_lt_of_le hj with rfl | hlater
        · simpa using hskip
        · exact hbefore j hlater hjf
      · simp only [pure, Except.pure, Except.ok.injEq,
          Option.some.injEq] at hrest
        subst hrest
        simp only [Bool.or_eq_true, Bool.not_eq_true', not_or,
          Bool.not_eq_true, Bool.not_eq_false] at hskip
        exact ⟨le_rfl, by omega, hskip.1, hskip.2, fun j hj hjf => by omega⟩

theorem scanBitmap_none
    {buffer : Buffer} {usable : ℕ → Bool} {count i : ℕ}
    (hscan : scanBitmap buffer usable count i = .ok none) :
    ∀ j, i ≤ j → j < i + count →
      buffer.bytes.bit j = true ∨ usable j = false := by
  induction count generalizing i with
  | zero =>
      intro j hlow hhigh
      omega
  | succ count ih =>
      simp only [scanBitmap] at hscan
      rw [Outcome.bind_eq_ok] at hscan
      obtain ⟨byte, hbyte, hrest⟩ := hscan
      have hbit : byte.testBit (i % 8) = buffer.bytes.bit i := by
        rw [← (Buffer.get8_eq_ok.1 hbyte).2]
        rfl
      rw [hbit] at hrest
      split_ifs at hrest with hskip
      · intro j hlow hhigh
        rcases Nat.eq_or_lt_of_le hlow with rfl | hlater
        · simpa using hskip
        · exact ih hrest j hlater (by omega)
      · simp [pure, Except.pure] at hrest

theorem scanBitmap_ok
    {buffer : Buffer} (usable : ℕ → Bool) {count i : ℕ}
    (hbound : count = 0 ∨ i + count ≤ 8 * buffer.size) :
    ∃ found, scanBitmap buffer usable count i = .ok found := by
  induction count generalizing i with
  | zero => exact ⟨none, rfl⟩
  | succ count ih =>
      have hbyte : buffer.get8 (i / 8) =
          .ok (buffer.bytes (i / 8)).toNat :=
        Buffer.get8_eq_ok.2 ⟨by omega, rfl⟩
      simp only [scanBitmap, hbyte, bind, Except.bind]
      split_ifs
      · exact ih (by omega)
      · exact ⟨some i, rfl⟩

/-! ## The loop over the groups -/

/-- The word of the descriptor of group `g` at which the driver finds a
bitmap. -/
def Volume.descriptorWord (v : Volume) (g field : ℕ) : ℕ :=
  (fetch v (descriptorBlock g)).bytes.le32 (descriptorOffset v g + field)

def Volume.descriptorHalf (v : Volume) (g field : ℕ) : ℕ :=
  (fetch v (descriptorBlock g)).bytes.le16 (descriptorOffset v g + field)

/-- Bit `i` of group `g` is one the search may take. -/
structure BitSearch.Free (search : BitSearch) (v : Volume) (g i : ℕ) :
    Prop where
  counted : v.descriptorHalf g search.counterField ≠ 0
  low : search.start g ≤ i
  high : i < search.perGroup
  clear :
    (fetch v (v.descriptorWord g search.bitmapField)).bytes.bit i = false
  usable : search.usable g i = true

structure BitSearch.FirstFree (search : BitSearch) (v : Volume)
    (g i : ℕ) : Prop where
  free : search.Free v g i
  group : g < v.groupCount
  noEarlierGroup : ∀ g' < g, ∀ i', ¬search.Free v g' i'
  noEarlierBit : ∀ i' < i, ¬search.Free v g i'

/-- One group: the search ends there with its first free bit, or goes on
without one. -/
theorem findFreeBit_succ
    {v next : Volume} {search : BitSearch} {count g : ℕ}
    {found : Option (ℕ × ℕ)}
    (hfind : findFreeBit v search (count + 1) g = .ok (found, next)) :
    ((∀ i, ¬search.Free v g i) ∧
        findFreeBit v search count (g + 1) = .ok (found, next)) ∨
      ∃ i, search.Free v g i ∧ (∀ i' < i, ¬search.Free v g i') ∧
        found = some (g, i) ∧
          next = writeBlock v (v.descriptorWord g search.bitmapField)
            ((fetch v (v.descriptorWord g
              search.bitmapField)).bytes.setBit i) := by
  simp only [findFreeBit] at hfind
  rw [Outcome.bind_eq_ok] at hfind
  obtain ⟨free, hfree, hfind⟩ := hfind
  have hcounter := (Buffer.get16_eq_ok.1 hfree).2
  split_ifs at hfind with hnone
  · exact .inl ⟨fun i hi => hi.counted (by
      rw [Volume.descriptorHalf, hcounter, hnone]), hfind⟩
  · rw [Outcome.bind_eq_ok] at hfind
    obtain ⟨bitmap, hbitmap, hfind⟩ := hfind
    have hword : v.descriptorWord g search.bitmapField = bitmap :=
      (Buffer.get32_eq_ok.1 hbitmap).2
    rw [Outcome.bind_eq_ok] at hfind
    obtain ⟨scanned, hscan, hfind⟩ := hfind
    cases scanned with
    | none =>
        refine .inl ⟨fun i hi => ?_, hfind⟩
        have hlow := hi.low
        have hhigh := hi.high
        have hclear := hi.clear
        rw [hword] at hclear
        rcases scanBitmap_none hscan i hlow (by omega) with hset | hunusable
        · rw [hset] at hclear
          cases hclear
        · rw [hi.usable] at hunusable
          cases hunusable
    | some i =>
        obtain ⟨hlow, hhigh, hclear, husable, hbefore⟩ :=
          scanBitmap_some hscan
        simp only [pure, Except.pure, Except.ok.injEq,
          Prod.mk.injEq] at hfind
        refine .inr ⟨i, ?_, ?_, hfind.1.symm, ?_⟩
        · exact {
            counted := by
              rw [Volume.descriptorHalf, hcounter]
              exact hnone
            low := hlow
            high := by omega
            clear := by
              rw [hword]
              exact hclear
            usable := husable }
        · intro i' hi' hfree'
          have hclear' := hfree'.clear
          rw [hword] at hclear'
          rcases hbefore i' hfree'.low hi' with hset | hunusable
          · rw [hset] at hclear'
            cases hclear'
          · rw [hfree'.usable] at hunusable
            cases hunusable
        · rw [hword]
          exact hfind.2.symm

/-- What a search over `count` groups from `g` on gives. -/
theorem findFreeBit_spec
    {v next : Volume} {search : BitSearch} {count g : ℕ}
    {found : Option (ℕ × ℕ)}
    (hfind : findFreeBit v search count g = .ok (found, next)) :
    (found = none ∧ next = v) ∨
      ∃ g' i, g ≤ g' ∧ g' < g + count ∧ search.Free v g' i ∧
        (∀ g'' i', g ≤ g'' → g'' < g' → ¬search.Free v g'' i') ∧
        (∀ i' < i, ¬search.Free v g' i') ∧
        found = some (g', i) ∧
          next = writeBlock v (v.descriptorWord g' search.bitmapField)
            ((fetch v (v.descriptorWord g'
              search.bitmapField)).bytes.setBit i) := by
  induction count generalizing g with
  | zero =>
      simp only [findFreeBit, pure, Except.pure, Except.ok.injEq,
        Prod.mk.injEq] at hfind
      exact .inl ⟨hfind.1.symm, hfind.2.symm⟩
  | succ count ih =>
      rcases findFreeBit_succ hfind with
        ⟨hskip, hrest⟩ | ⟨i, hfree, hfirst, hfound, hnext⟩
      · rcases ih hrest with hnone |
          ⟨g', i, hlow, hhigh, hfree, hgroups, hbits, hfound, hnext⟩
        · exact .inl hnone
        · refine .inr ⟨g', i, by omega, by omega, hfree, ?_, hbits, hfound,
            hnext⟩
          intro g'' i' hg'' hlt
          rcases Nat.eq_or_lt_of_le hg'' with rfl | hlater
          · exact hskip i'
          · exact hgroups g'' i' hlater hlt
      · refine .inr ⟨g, i, le_rfl, by omega, hfree, ?_, hfirst, hfound,
          hnext⟩
        intro g'' i' hg'' hlt
        omega

theorem findFreeBit_toGeometry
    {v next : Volume} {search : BitSearch} {count g : ℕ}
    {found : Option (ℕ × ℕ)}
    (hfind : findFreeBit v search count g = .ok (found, next)) :
    next.toGeometry = v.toGeometry := by
  rcases findFreeBit_spec hfind with ⟨-, rfl⟩ | ⟨g', i, -, -, -, -, -, -, rfl⟩
  · rfl
  · simp

theorem findFreeBlock_toGeometry
    {v next : Volume} {block : ℕ}
    (hfind : findFreeBlock v = .ok (block, next)) :
    next.toGeometry = v.toGeometry ∧ block < 4294967296 := by
  unfold findFreeBlock at hfind
  rw [Outcome.bind_eq_ok] at hfind
  obtain ⟨⟨found, volume⟩, hbit, hfind⟩ := hfind
  have hgeometry := findFreeBit_toGeometry hbit
  cases found with
  | none =>
      simp only [pure, Except.pure, Except.ok.injEq,
        Prod.mk.injEq] at hfind
      obtain ⟨rfl, rfl⟩ := hfind
      exact ⟨hgeometry, by norm_num⟩
  | some place =>
      simp only [pure, Except.pure, Except.ok.injEq,
        Prod.mk.injEq] at hfind
      obtain ⟨rfl, rfl⟩ := hfind
      exact ⟨hgeometry, u32_lt _⟩

theorem findFreeInode_toGeometry
    {v next : Volume} {number : ℕ}
    (hfind : findFreeInode v = .ok (number, next)) :
    next.toGeometry = v.toGeometry := by
  unfold findFreeInode at hfind
  rw [Outcome.bind_eq_ok] at hfind
  obtain ⟨⟨found, volume⟩, hbit, hfind⟩ := hfind
  have hgeometry := findFreeBit_toGeometry hbit
  cases found <;>
    simp only [pure, Except.pure, Except.ok.injEq, Prod.mk.injEq] at hfind <;>
    rw [← hfind.2] <;> exact hgeometry

def Volume.freeBitmap (v : Volume) (block : ℕ) : ℕ :=
  v.descriptorWord (block / v.blocksPerGroup) 0

theorem freeBlock_eq_ok
    {v next : Volume} {block : ℕ}
    (hfree : freeBlock v block = .ok next) :
    next = writeBlock v (v.freeBitmap block)
      ((fetch v (v.freeBitmap block)).bytes.clearBit
        (block % v.blocksPerGroup)) := by
  unfold freeBlock at hfree
  rw [Outcome.bind_eq_ok] at hfree
  obtain ⟨bitmap, hbitmap, hfree⟩ := hfree
  have hword : v.freeBitmap block = bitmap := (Buffer.get32_eq_ok.1 hbitmap).2
  rw [Outcome.bind_eq_ok] at hfree
  obtain ⟨_, -, hfree⟩ := hfree
  simp only [pure, Except.pure, Except.ok.injEq] at hfree
  rw [hword]
  exact hfree.symm

theorem freeBlocks_cons (v : Volume) (block : ℕ) (rest : List ℕ) :
    freeBlocks v (block :: rest) =
      freeBlock v block >>= fun next => freeBlocks next rest := by
  simp [freeBlocks]

theorem freeBlocks_toGeometry
    {v next : Volume} {blocks : List ℕ}
    (hfree : freeBlocks v blocks = .ok next) :
    next.toGeometry = v.toGeometry := by
  induction blocks generalizing v with
  | nil =>
      simp only [freeBlocks, List.foldlM_nil, pure, Except.pure,
        Except.ok.injEq] at hfree
      rw [hfree]
  | cons block rest ih =>
      rw [freeBlocks_cons, Outcome.bind_eq_ok] at hfree
      obtain ⟨middle, hblock, hrest⟩ := hfree
      rw [ih hrest, freeBlock_eq_ok hblock]
      simp

end ClOs.Ext3
