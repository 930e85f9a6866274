import ClOs.VgaTerminal

/-!
# Deleting what was printed

Behind the last cell of a row the column rests at 80, and `vga_delete` never
leaves it there.  Both forms of the cursor are one position when the cells are
numbered row by row: a byte fills the cell at the position and steps forward, and
a deletion steps back and blanks the cell.
-/

namespace ClOs.Vga

/-- A byte that `printc` puts into a cell. -/
def Plain (c : UInt8) : Prop := c ≠ 10 ∧ c ≠ 13 ∧ c ≠ 9

instance (c : UInt8) : Decidable (Plain c) :=
  inferInstanceAs (Decidable (_ ∧ _))

/-- The indexes of `count` cells from a position on, the last one first. -/
def cellsFrom (position : ℤ) (count : ℕ) : List ℤ :=
  ((List.range count).map fun i : ℕ => position + i).reverse

theorem cellsFrom_one (position : ℤ) : cellsFrom position 1 = [position] := by
  simp [cellsFrom]

/-- A step that fills `count` cells from the position of the cursor on. -/
structure Fills (s next : Screen) (count : ℕ) : Prop where
  inRange : next.InRange
  position : next.position = s.position + count
  color : next.currentVgaColor = s.currentVgaColor
  accesses : next.accesses = cellsFrom s.position count ++ s.accesses
  others : ∀ i, ¬(s.position ≤ i ∧ i < s.position + count) →
    next.vga i = s.vga i

/-! ## Printing -/

theorem cellsFrom_succ (position : ℤ) (count : ℕ) :
    cellsFrom position (count + 1) =
      cellsFrom (position + 1) count ++ [position] := by
  unfold cellsFrom
  rw [List.range_succ_eq_map, List.map_cons, List.reverse_cons, List.map_map]
  congr 1
  · congr 1
    refine List.map_congr_left fun i _ => ?_
    simp only [Function.comp_apply, Nat.cast_succ]
    omega
  · simp

section

variable {s next last : Screen} {count : ℕ}

theorem Fills.refl (h : s.InRange) : Fills s s 0 where
  inRange := h
  position := by simp
  color := rfl
  accesses := rfl
  others _ _ := rfl

theorem Fills.cons
    (h : Fills s next 1) (h' : Fills next last count) :
    Fills s last (count + 1) where
  inRange := h'.inRange
  position := by
    rw [h'.position, h.position]
    push_cast
    omega
  color := h'.color.trans h.color
  accesses := by
    rw [h'.accesses, h.accesses, h.position, cellsFrom_one,
      cellsFrom_succ s.position count, List.append_assoc]
    rfl
  others := by
    intro i hi
    have hposition := h.position
    push_cast at hi hposition
    rw [h'.others i (by omega), h.others i (by push_cast; omega)]

/-- A wrap changes the form of the cursor only. -/
theorem wrapLine_fills
    (h : s.InRange)
    (hlines : s.vgaColomn = vgaWidth → s.vgaRow + 1 < vgaHeight) :
    Fills s (wrapLine s) 0 ∧ (wrapLine s).vgaColomn < vgaWidth := by
  have hcolomn := h.colomn
  unfold wrapLine
  split_ifs with hwrap
  · have hrow := hlines hwrap
    have hopen : s.vgaRow < vgaHeight - 1 := by omega
    unfold newLine
    rw [if_pos hopen]
    unfold vgaHeight at hrow
    refine ⟨⟨⟨?_, ?_⟩, ?_, rfl, rfl, fun _ _ => rfl⟩,
      (by decide : 0 < vgaWidth)⟩
    · simp only [vgaHeight]
      omega
    · exact Nat.zero_le _
    · unfold Screen.position
      simp only [hwrap, vgaWidth]
      omega
  · exact ⟨Fills.refl h, lt_of_le_of_ne hcolomn hwrap⟩

/-- A byte takes the cell under the cursor. -/
theorem printc_fills
    (h : s.InRange) {c : UInt8} (hc : Plain c)
    (hlines : s.vgaRow + opened s.vgaColomn c < vgaHeight) :
    Fills s (printc s c) 1 := by
  obtain ⟨hnewline, hreturn, htab⟩ := hc
  have hopened : opened s.vgaColomn c =
      if s.vgaColomn = vgaWidth then 1 else 0 := by
    unfold opened
    rw [if_neg hnewline, if_neg hreturn, if_neg htab]
  rw [hopened] at hlines
  obtain ⟨hwrap, hcolomn⟩ := wrapLine_fills h
    (fun hend => by rwa [if_pos hend] at hlines)
  have hposition := hwrap.position
  unfold printc
  rw [if_neg hnewline, if_neg hreturn, if_neg htab]
  simp only
  generalize wrapLine s = wrapped at hwrap hcolomn hposition ⊢
  have hlt : wrapped.vgaColomn + 1 < 256 := by
    unfold vgaWidth at hcolomn
    omega
  refine ⟨⟨hwrap.inRange.row, ?_⟩, ?_, hwrap.color, ?_, ?_⟩
  · unfold nextColomn
    simp only [store_vgaColomn, Nat.mod_eq_of_lt hlt]
    exact hcolomn
  · unfold Screen.position at hposition ⊢
    unfold nextColomn
    simp only [store_vgaColomn, store_vgaRow, Nat.mod_eq_of_lt hlt]
    push_cast at hposition ⊢
    omega
  · have haccesses := hwrap.accesses
    unfold nextColomn store
    simp only [haccesses, hposition, cellsFrom_one]
    simp [cellsFrom]
  · intro i hi
    have hother : i ≠ wrapped.position := by
      push_cast at hi hposition
      omega
    have hkeep := hwrap.others i (by push_cast; omega)
    unfold nextColomn
    simp only [store_vga, if_neg hother]
    exact hkeep

theorem print_fills
    (h : s.InRange) {text : CString} (htext : ∀ c ∈ text, Plain c)
    (hlines : s.vgaRow + openedBy s.vgaColomn text < vgaHeight) :
    Fills s (print text s) text.length := by
  induction text generalizing s with
  | nil => exact Fills.refl h
  | cons c text ih =>
      rw [openedBy] at hlines
      have hmoves := printc_moves h c
      have hrow : (printc s c).vgaRow = s.vgaRow + opened s.vgaColomn c := by
        rw [hmoves.row]
        omega
      have hfirst := printc_fills h (htext c List.mem_cons_self)
        (by omega)
      refine hfirst.cons (ih hfirst.inRange
        (fun c hc => htext c (List.mem_cons_of_mem _ hc)) ?_)
      rw [hrow, hmoves.colomn]
      omega

/-! ## Deleting -/

theorem deleteCell_cells
    (h : s.InRange) (hstart : 0 < s.position) :
    (deleteCell s).position = s.position - 1 ∧
      (deleteCell s).currentVgaColor = s.currentVgaColor ∧
      ∀ i, (deleteCell s).vga i =
        if i = s.position - 1 then s.blank % 65536 else s.vga i := by
  have hrow := h.row
  have hcolomn := h.colomn
  unfold vgaHeight at hrow
  unfold vgaWidth at hcolomn
  unfold Screen.position vgaWidth at hstart
  unfold deleteCell
  split_ifs with hzero
  · have hplace : Screen.position { s with
        vgaRow := (s.vgaRow + 255) % 256, vgaColomn := vgaWidth - 1 } =
          s.position - 1 := by
      unfold Screen.position vgaWidth
      simp only [hzero] at hstart ⊢
      omega
    refine ⟨hplace, rfl, fun i => ?_⟩
    simp only [store_vga, hplace]
    rfl
  · have hplace : (previousColomn s).position = s.position - 1 := by
      unfold Screen.position previousColomn vgaWidth
      simp only
      omega
    refine ⟨hplace, rfl, fun i => ?_⟩
    simp only [store_vga, hplace]
    rfl

theorem vgaDelete_cells
    (h : s.InRange) (hcount : (count : ℤ) ≤ s.position) :
    (vgaDelete count s).position = s.position - count ∧
      ∀ i, (vgaDelete count s).vga i =
        if s.position - count ≤ i ∧ i < s.position then s.blank % 65536
        else s.vga i := by
  induction count generalizing s with
  | zero =>
      refine ⟨by rw [vgaDelete]; simp, fun i => ?_⟩
      rw [vgaDelete, if_neg (by push_cast; omega)]
  | succ count ih =>
      push_cast at hcount
      have hstart : ¬(s.vgaColomn = 0 ∧ s.vgaRow = 0) := by
        rintro ⟨hcolomn, hrow⟩
        unfold Screen.position at hcount
        rw [hcolomn, hrow] at hcount
        push_cast at hcount
        omega
      obtain ⟨hplace, hcolor, hcells⟩ := deleteCell_cells h (by omega)
      obtain ⟨hposition, hrest⟩ :=
        ih (deleteCell_spec h hstart).1 (by omega)
      have hblank : (deleteCell s).blank = s.blank := by
        unfold Screen.blank
        rw [hcolor]
      rw [vgaDelete, if_neg hstart]
      refine ⟨by rw [hposition, hplace]; push_cast; omega, fun i => ?_⟩
      rw [hrest, hcells, hblank, hplace]
      push_cast
      by_cases hlast : i = s.position - 1
      · rw [if_neg (by omega), if_pos hlast, if_pos (by omega)]
      · rw [if_neg hlast]
        exact if_congr (by omega) rfl rfl

end

/-! ## Both -/

/-- Deleting as many cells as were printed takes the cursor back to its position.
The cells that were filled are blank, and all others are as they were. -/
theorem vgaDelete_print
    {s : Screen} (h : s.InRange) {text : CString}
    (htext : ∀ c ∈ text, Plain c) (hfits : s.Fits (.print text)) :
    (print text s).accesses =
        cellsFrom s.position text.length ++ s.accesses ∧
      (vgaDelete text.length (print text s)).position = s.position ∧
      ∀ i, (vgaDelete text.length (print text s)).vga i =
        if s.position ≤ i ∧ i < s.position + text.length then s.blank % 65536
        else s.vga i := by
  have hprint := print_fills h htext hfits
  have hpositive : 0 ≤ s.position := by
    unfold Screen.position
    positivity
  have hend := hprint.position
  have hblank : (print text s).blank = s.blank := by
    unfold Screen.blank
    rw [hprint.color]
  obtain ⟨hposition, hcells⟩ :=
    vgaDelete_cells hprint.inRange (by omega : (text.length : ℤ) ≤ _)
  refine ⟨hprint.accesses, by rw [hposition]; omega, fun i => ?_⟩
  rw [hcells, hblank, hend]
  by_cases hfilled : s.position ≤ i ∧ i < s.position + text.length
  · rw [if_pos (by omega), if_pos hfilled]
  · rw [if_neg (by omega), if_neg hfilled]
    exact hprint.others i hfilled

/-- The cursor behind the last cell of row 3. -/
def behindRow : Screen where
  vga _ := 0
  vgaColomn := 80
  vgaRow := 3
  currentVgaColor := defaultVgaColor
  accesses := []

/-- Two bytes are printed into row 4 there and deleted again. -/
theorem vgaDelete_print_behindRow :
    (print [104, 105] behindRow).accesses =
        cellsFrom behindRow.position 2 ++ behindRow.accesses ∧
      (vgaDelete 2 (print [104, 105] behindRow)).position =
        behindRow.position ∧
      ∀ i, (vgaDelete 2 (print [104, 105] behindRow)).vga i =
        if behindRow.position ≤ i ∧ i < behindRow.position + (2 : ℕ) then
          behindRow.blank % 65536
        else behindRow.vga i :=
  @vgaDelete_print behindRow ⟨by decide, by decide⟩ [104, 105]
    (by decide +kernel) (by decide +kernel)

end ClOs.Vga
