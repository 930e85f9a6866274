import ClOs.LaidOutText
import ClOs.VgaCursor

/-!
# The screen as a terminal

The screen shows the last 25 lines of what was printed since the reset.  Scrolling
clears only 25 cells of the row that comes free, so a cell behind them keeps the
byte that was there until a line is long enough to overwrite it, and a byte from
128 on is printed with all bits of its high byte set.
-/

namespace ClOs.Vga

/-! ## Cells -/

theorem store_vga (index : ℤ) (value : ℕ) (s : Screen) (i : ℤ) :
    (store index value s).vga i =
      if i = index then value % 65536 else s.vga i := by
  unfold store
  exact Function.update_apply _ _ _ _

theorem moveCell_vga (y : ℕ) (s : Screen) (x : ℕ) (i : ℤ) :
    (moveCell y s x).vga i =
      if i = ((y : ℤ) - 1) * 80 + x then s.vga ((y : ℤ) * 80 + x) % 65536
      else s.vga i :=
  store_vga _ _ _ i

theorem clearCell_vga (y : ℕ) (s : Screen) (x : ℕ) (i : ℤ) :
    (clearCell y s x).vga i =
      if i = (y : ℤ) * 80 + x then s.blank % 65536 else s.vga i :=
  store_vga _ _ _ i

theorem moveCells_vga
    (s : Screen) (y : ℕ) {m : ℕ} (hm : m ≤ 80) (i : ℤ) :
    ((List.range m).foldl (moveCell y) s).vga i =
      if ((y : ℤ) - 1) * 80 ≤ i ∧ i < ((y : ℤ) - 1) * 80 + m then
        s.vga (i + 80) % 65536
      else s.vga i := by
  induction m generalizing i with
  | zero =>
      rw [if_neg (by omega)]
      rfl
  | succ m ih =>
      rw [List.range_succ, List.foldl_append, List.foldl_cons, List.foldl_nil,
        moveCell_vga]
      simp only [ih (by omega)]
      by_cases htarget : i = ((y : ℤ) - 1) * 80 + m
      · have hsource : (y : ℤ) * 80 + m = i + 80 := by omega
        rw [if_pos htarget, if_neg (by omega), if_pos (by push_cast; omega),
          hsource]
      · rw [if_neg htarget]
        exact if_congr (by push_cast; omega) rfl rfl

theorem moveRow_vga (s : Screen) (y : ℕ) (i : ℤ) :
    (moveRow s y).vga i =
      if ((y : ℤ) - 1) * 80 ≤ i ∧ i < (y : ℤ) * 80 then
        s.vga (i + 80) % 65536
      else s.vga i := by
  unfold moveRow vgaWidth
  rw [moveCells_vga s y (le_refl _)]
  exact if_congr (by push_cast; omega) rfl rfl

theorem moveRows_vga (s : Screen) (m : ℕ) (i : ℤ) :
    ((List.range m).foldl moveRow s).vga i =
      if -80 ≤ i ∧ i < ((m : ℤ) - 1) * 80 then s.vga (i + 80) % 65536
      else s.vga i := by
  induction m generalizing i with
  | zero =>
      rw [if_neg (by push_cast; omega)]
      rfl
  | succ m ih =>
      rw [List.range_succ, List.foldl_append, List.foldl_cons, List.foldl_nil,
        moveRow_vga]
      simp only [ih]
      by_cases hrow : ((m : ℤ) - 1) * 80 ≤ i ∧ i < (m : ℤ) * 80
      · rw [if_pos hrow, if_neg (by omega), if_pos (by push_cast; omega)]
      · rw [if_neg hrow]
        exact if_congr (by push_cast; omega) rfl rfl

/-- The colour after steps that keep it. -/
theorem foldl_color
    {step : Screen → ℕ → Screen}
    (h : ∀ s x, (step s x).currentVgaColor = s.currentVgaColor)
    (xs : List ℕ) (s : Screen) :
    (xs.foldl step s).currentVgaColor = s.currentVgaColor := by
  induction xs generalizing s with
  | nil => rfl
  | cons x xs ih => exact (ih _).trans (h s x)

theorem moveRow_color (s : Screen) (y : ℕ) :
    (moveRow s y).currentVgaColor = s.currentVgaColor :=
  @foldl_color (moveCell y) (fun _ _ => rfl) _ s

theorem clearCells_color (y : ℕ) (xs : List ℕ) (s : Screen) :
    (xs.foldl (clearCell y) s).currentVgaColor = s.currentVgaColor :=
  @foldl_color (clearCell y) (fun _ _ => rfl) xs s

theorem clearCells_vga (s : Screen) (y m : ℕ) (i : ℤ) :
    ((List.range m).foldl (clearCell y) s).vga i =
      if (y : ℤ) * 80 ≤ i ∧ i < (y : ℤ) * 80 + m then s.blank % 65536
      else s.vga i := by
  induction m with
  | zero =>
      rw [if_neg (by omega)]
      rfl
  | succ m ih =>
      rw [List.range_succ, List.foldl_append, List.foldl_cons, List.foldl_nil,
        clearCell_vga, ih]
      have hblank := congrArg (charValue 32 ||| ·)
        (clearCells_color y (List.range m) s)
      by_cases htarget : i = (y : ℤ) * 80 + m
      · rw [if_pos htarget, if_pos (by push_cast; omega)]
        exact congrArg (· % 65536) hblank
      · rw [if_neg htarget]
        exact if_congr (by push_cast; omega) rfl rfl

/-- `scroll_up` on the screen: the rows move up, and the last row keeps all but its
first 25 cells. -/
theorem scrollUp_vga
    (s : Screen) {y x : ℕ} (hy : y < 25) (hx : x < 80) :
    (scrollUp s).vga (y * 80 + x) =
      if y < 24 then s.vga ((y + 1 : ℕ) * 80 + x) % 65536
      else if x < 25 then s.blank % 65536
      else s.vga (y * 80 + x) := by
  have hcolor : ((List.range vgaHeight).foldl moveRow s).blank = s.blank :=
    congrArg (charValue 32 ||| ·) (foldl_color moveRow_color _ s)
  unfold scrollUp
  rw [clearCells_vga, hcolor, moveRows_vga]
  unfold vgaHeight
  split_ifs with hclear hrow hcolomn hmove hrow hcolomn hrow hcolomn <;>
    first
      | omega
      | rfl
      | (congr 2; push_cast; omega)

theorem scrollUp_color (s : Screen) :
    (scrollUp s).currentVgaColor = s.currentVgaColor := by
  unfold scrollUp
  exact (clearCells_color _ _ _).trans (foldl_color moveRow_color _ s)

theorem clearRows_vga (s : Screen) (m : ℕ) (i : ℤ) :
    ((List.range m).foldl clearRow s).vga i =
      if 0 ≤ i ∧ i < (m : ℤ) * 80 then s.blank % 65536 else s.vga i := by
  have hkeeps : ∀ (s : Screen) (y : ℕ),
      (clearRow s y).currentVgaColor = s.currentVgaColor :=
    fun s y => clearCells_color y _ s
  induction m with
  | zero =>
      rw [if_neg (by push_cast; omega)]
      rfl
  | succ m ih =>
      rw [List.range_succ, List.foldl_append, List.foldl_cons, List.foldl_nil]
      have hblank := congrArg (charValue 32 ||| ·)
        (foldl_color hkeeps (List.range m) s)
      rw [clearRow, clearCells_vga, ih]
      unfold vgaWidth
      by_cases hrow : (m : ℤ) * 80 ≤ i ∧ i < (m : ℤ) * 80 + (80 : ℕ)
      · rw [if_pos hrow, if_pos (by push_cast at *; omega)]
        exact congrArg (· % 65536) hblank
      · rw [if_neg hrow]
        exact if_congr (by push_cast at *; omega) rfl rfl

/-! ## What a cell shows -/

/-- The cell of a printed byte, or of a blank. -/
def cellOf (shown : Option UInt8) : ℕ :=
  charValue (shown.getD 32) ||| defaultVgaColor

theorem charValue_lt (c : UInt8) : charValue c < 65536 := by
  have hlt := c.toNat_lt
  unfold charValue
  split_ifs <;> omega

theorem cellOf_mod (shown : Option UInt8) : cellOf shown % 65536 = cellOf shown :=
  Nat.mod_eq_of_lt (@Nat.or_lt_two_pow _ _ 16 (charValue_lt _) (by decide))

/-- The byte that the screen shows in column `x` of line `k`: the line's own, or the
one that the line above it left in the last row. -/
def shownAt (lines : List CString) (x : ℕ) : ℕ → Option UInt8
  | 0 => letterAt lines 0 x
  | k + 1 =>
      (letterAt lines (k + 1) x).or
        (if 24 ≤ k ∧ 25 ≤ x then shownAt lines x k else none)

theorem shownAt_congr
    {lines lines' : List CString} {x : ℕ} :
    ∀ {k : ℕ}, (∀ j ≤ k, j = k ∨ 24 ≤ j →
      letterAt lines j x = letterAt lines' j x) →
        shownAt lines x k = shownAt lines' x k
  | 0, h => h 0 (le_refl 0) (.inl rfl)
  | k + 1, h => by
      unfold shownAt
      rw [h (k + 1) (le_refl _) (.inl rfl)]
      split_ifs with hleft
      · rw [shownAt_congr fun j hj _ => h j (by omega) (.inr (by omega))]
      · rfl

structure Screen.Shows (s : Screen) (sheet : Sheet UInt8) : Prop where
  color : s.currentVgaColor = defaultVgaColor
  row : s.vgaRow = min sheet.above.length 24
  colomn : s.vgaColomn = sheet.line.length
  fits : sheet.line.length ≤ 80
  cells : ∀ y < 25, ∀ x < 80, s.vga ((y : ℕ) * 80 + (x : ℕ)) =
    cellOf (shownAt sheet.lines x (sheet.above.length - 24 + y))

section

variable {s : Screen} {sheet : Sheet UInt8}

theorem shows_vgaReset (s : Screen) : (vgaReset s).Shows Sheet.empty := by
  have hkeeps : ∀ (s : Screen) (y : ℕ),
      (clearRow s y).currentVgaColor = s.currentVgaColor :=
    fun s y => clearCells_color y _ s
  obtain ⟨hrow, hcolomn⟩ := clearRow_steady.foldl (List.range vgaHeight)
    { s with
      vgaColomn := 0, vgaRow := 0, currentVgaColor := defaultVgaColor }
  refine ⟨foldl_color hkeeps _ _, hrow, hcolomn, Nat.zero_le _,
    fun y hy x hx => ?_⟩
  have hnone : ∀ k, letterAt (Sheet.empty : Sheet UInt8).lines k x = none := by
    intro k
    unfold Sheet.lines
    rw [letterAt_append]
    split_ifs <;> rfl
  have hshown : ∀ k, shownAt (Sheet.empty : Sheet UInt8).lines x k = none := by
    intro k
    induction k with
    | zero => exact hnone 0
    | succ k ih => simp [shownAt, hnone, ih]
  unfold vgaReset vgaHeight
  rw [clearRows_vga, if_pos (by push_cast; omega), hshown]
  exact cellOf_mod none

theorem Screen.Shows.newLine (h : s.Shows sheet) :
    (newLine s).Shows sheet.opened := by
  obtain ⟨hcolor, hrow, hcolomn, hfits, hcells⟩ := h
  have hsame : ∀ x k, shownAt sheet.opened.lines x k =
      shownAt sheet.lines x k :=
    fun x k => shownAt_congr fun j _ _ => letterAt_opened sheet j x
  unfold Vga.newLine vgaHeight
  split_ifs with hlast
  · refine ⟨hcolor, ?_, rfl, Nat.zero_le _, fun y hy x hx => ?_⟩
    · simp only [Sheet.opened_above, List.length_append, List.length_singleton]
      omega
    · refine (hcells y hy x hx).trans ?_
      rw [hsame, sheet.opened_above, List.length_append, List.length_singleton]
      congr 2
      omega
  · have hscrolled := @scrollUp_vga s
    have hcolor' := scrollUp_color s
    have hrow' := (scrollUp_steady s).1
    generalize scrollUp s = scrolled at *
    refine ⟨hcolor'.trans hcolor, hrow'.trans ?_, rfl, Nat.zero_le _,
      fun y hy x hx => (hscrolled hy hx).trans ?_⟩
    · rw [sheet.opened_above, List.length_append, List.length_singleton]
      omega
    · rw [hsame, sheet.opened_above, List.length_append, List.length_singleton]
      split_ifs with hup hclear
      · rw [hcells (y + 1) (by omega) x hx, cellOf_mod]
        congr 2
        omega
      · obtain rfl : y = 24 := by omega
        have hline : sheet.above.length + 1 - 24 + 24 =
            sheet.above.length + 1 := by omega
        have hempty : letterAt sheet.lines (sheet.above.length + 1) x = none :=
          letterAt_of_length_le (by simp [Sheet.lines]) x
        have hblank : s.blank = cellOf none := by
          unfold Screen.blank
          rw [hcolor]
          rfl
        rw [hline, shownAt, hempty, if_neg (by omega), hblank]
        exact cellOf_mod none
      · obtain rfl : y = 24 := by omega
        have hline : sheet.above.length + 1 - 24 + 24 =
            sheet.above.length + 1 := by omega
        have hempty : letterAt sheet.lines (sheet.above.length + 1) x = none :=
          letterAt_of_length_le (by simp [Sheet.lines]) x
        rw [hline, shownAt, hempty, if_pos (by omega), Option.none_or,
          hcells 24 hy x hx]
        congr 2
        omega

/-- A byte that the cell under the cursor takes. -/
theorem Screen.Shows.put
    (h : s.Shows sheet) (hroom : sheet.line.length < 80) (c : UInt8) :
    (nextColomn (store s.position (charValue c ||| s.currentVgaColor) s)).Shows
      (sheet.put c) := by
  obtain ⟨hcolor, hrow, hcolomn, hfits, hcells⟩ := h
  refine ⟨hcolor, hrow, ?_, ?_, fun y hy x hx => ?_⟩
  · unfold nextColomn
    simp only [store_vgaColomn, sheet.put_line, List.length_append,
      List.length_singleton]
    omega
  · simpa using hroom
  · refine (store_vga _ _ _ _).trans ?_
    unfold Screen.position vgaWidth
    rw [hrow, hcolomn, sheet.put_above]
    by_cases hplace : sheet.above.length - 24 + y = sheet.above.length ∧
        x = sheet.line.length
    · have hletter := letterAt_put sheet c (sheet.above.length - 24 + y) x
      rw [if_pos hplace] at hletter
      have hshown : shownAt (sheet.put c).lines x
          (sheet.above.length - 24 + y) = some c := by
        generalize sheet.above.length - 24 + y = k at hletter
        cases k with
        | zero => exact hletter
        | succ k => rw [shownAt, hletter, Option.some_or]
      rw [if_pos (by push_cast; omega), hshown, hcolor]
      exact cellOf_mod (some c)
    · rw [if_neg (by push_cast; omega), hcells y hy x hx]
      refine congrArg cellOf (shownAt_congr fun j hj hlast => ?_)
      rw [letterAt_put, if_neg (by omega)]

theorem Screen.Shows.printc
    (h : s.Shows sheet) {c : UInt8} (hplain : c = 10 ∨ 32 ≤ c) :
    (printc s c).Shows (sheet.type 10 80 c) := by
  unfold Vga.printc
  split_ifs with hline hreturn htab
  · subst hline
    rw [Sheet.type_mark]
    exact h.newLine
  · subst hreturn
    exact absurd hplain (by decide)
  · subst htab
    exact absurd hplain (by decide)
  · unfold wrapLine
    have hcolomn := h.colomn
    unfold vgaWidth
    split_ifs with hwrap
    · rw [Sheet.type_full hline (by omega)]
      exact h.newLine.put (by simp) c
    · have hfits := h.fits
      rw [Sheet.type_open hline (by omega)]
      exact h.put (by omega) c

theorem Screen.Shows.print
    (h : s.Shows sheet) {text : CString} (hplain : ∀ c ∈ text, c = 10 ∨ 32 ≤ c) :
    (print text s).Shows (text.foldl (Sheet.type 10 80) sheet) := by
  induction text generalizing s sheet with
  | nil => exact h
  | cons c text ih =>
      obtain ⟨hc, htext⟩ := List.forall_mem_cons.1 hplain
      exact ih (h.printc hc) htext

end

/-! ## The reference terminal -/

/-- The lines of a text: a newline ends a line, and so do 80 bytes. -/
def textLines (text : CString) : List CString := laidOut 10 vgaWidth text

/-- The screen shows the last 25 lines of a text, each byte in the low byte of its
cell and the colour in the high byte, and blanks in that colour elsewhere. -/
def Screen.ShowsText (s : Screen) (text : CString) : Prop :=
  ∀ y < vgaHeight, ∀ x < vgaWidth, s.vga ((y : ℕ) * vgaWidth + (x : ℕ)) =
    ((letterAt (textLines text) ((textLines text).length - vgaHeight + y)
      x).getD 32).toNat ||| s.currentVgaColor

/-- A line that is shown in the end. -/
def Shown (lines : List CString) (k : ℕ) : Prop :=
  k < lines.length ∧ lines.length ≤ k + vgaHeight

/-- The bytes that are shown are ASCII. -/
def LowBytes (lines : List CString) : Prop :=
  ∀ k, Shown lines k → ∀ x < vgaWidth, ∀ c, letterAt lines k x = some c →
    c < 128

/-- Where a line that is shown ends before column `x`, the last line above it that
reaches the column, from line 24 on, has a blank there. -/
def NothingLeft (lines : List CString) : Prop :=
  ∀ k, Shown lines k → ∀ x, 25 ≤ x → x < vgaWidth →
    ∀ j, 24 ≤ j → j < k → ∀ c, letterAt lines j x = some c →
      (∀ i, j < i → i ≤ k → letterAt lines i x = none) → c = 32

theorem print_cells
    (s : Screen) {text : CString} (hplain : ∀ c ∈ text, c = 10 ∨ 32 ≤ c) :
    (print text (vgaReset s)).currentVgaColor = defaultVgaColor ∧
      ∀ y < 25, ∀ x < 80,
        (print text (vgaReset s)).vga ((y : ℕ) * 80 + (x : ℕ)) =
          cellOf (shownAt (textLines text) x
            ((textLines text).length - 25 + y)) := by
  have hshows := (shows_vgaReset s).print hplain
  refine ⟨hshows.color, fun y hy x hx => (hshows.cells y hy x hx).trans ?_⟩
  unfold textLines vgaWidth
  rw [laidOut_eq_lines (by norm_num)]
  unfold Sheet.lines
  rw [List.length_append, List.length_singleton]
  congr 2

theorem cellOf_eq_iff (shown : Option UInt8) (c : UInt8) :
    cellOf shown = c.toNat ||| defaultVgaColor ↔
      shown.getD 32 = c ∧ c < 128 := by
  have hlow : ∀ n < 256, n ||| 3840 = n + 3840 := by decide +kernel
  have hhigh : ∀ n < 256, (65280 + n) ||| 3840 = 65280 + n := by
    decide +kernel
  have hcolor : defaultVgaColor = 3840 := rfl
  unfold cellOf charValue
  generalize shown.getD 32 = b
  rw [hcolor, hlow _ c.toNat_lt, UInt8.lt_iff_toNat_lt, ← UInt8.toNat_inj]
  have hb := b.toNat_lt
  have hc := c.toNat_lt
  change _ ↔ _ ∧ _ < 128
  split_ifs with hascii
  · rw [hlow _ hb]
    omega
  · rw [hhigh _ hb]
    omega

/-- What a line shows where it has no byte of its own. -/
theorem shownAt_eq_some_iff
    {lines : List CString} {x k : ℕ} {c : UInt8} :
    shownAt lines x k = some c ↔ letterAt lines k x = some c ∨
      25 ≤ x ∧ ∃ j, 24 ≤ j ∧ j < k ∧ letterAt lines j x = some c ∧
        ∀ i, j < i → i ≤ k → letterAt lines i x = none := by
  induction k with
  | zero => simp [shownAt]
  | succ k ih =>
      unfold shownAt
      cases hown : letterAt lines (k + 1) x with
      | some own =>
          rw [Option.some_or]
          refine ⟨.inl, ?_⟩
          rintro (h | ⟨-, j, -, hj, -, hnone⟩)
          · exact h
          · rw [hnone (k + 1) hj (le_refl _)] at hown
            cases hown
      | none =>
          rw [Option.none_or]
          constructor
          · intro h
            split_ifs at h with hleft
            rcases ih.1 h with hletter | ⟨hx, j, hlow, hj, hletter, hnone⟩
            · refine .inr ⟨hleft.2, k, hleft.1, by omega, hletter,
                fun i hi hik => ?_⟩
              rwa [show i = k + 1 by omega]
            · refine .inr ⟨hx, j, hlow, by omega, hletter, fun i hi hik => ?_⟩
              rcases Nat.lt_or_ge k i with hlast | hlast
              · rwa [show i = k + 1 by omega]
              · exact hnone i hi hlast
          · rintro (h | ⟨hx, j, hlow, hj, hletter, hnone⟩)
            · cases h
            · rw [if_pos ⟨by omega, hx⟩, ih]
              rcases Nat.eq_or_lt_of_le (Nat.lt_succ_iff.1 hj) with rfl | hj
              · exact .inl hletter
              · exact .inr ⟨hx, j, hlow, hj, hletter,
                  fun i hi hik => hnone i hi (by omega)⟩

theorem print_showsText_iff
    (s : Screen) {text : CString} (hplain : ∀ c ∈ text, c = 10 ∨ 32 ≤ c) :
    (print text (vgaReset s)).ShowsText text ↔
      LowBytes (textLines text) ∧ NothingLeft (textLines text) := by
  obtain ⟨hcolor, hcells⟩ := print_cells s hplain
  unfold Screen.ShowsText LowBytes NothingLeft Shown vgaHeight vgaWidth
  rw [hcolor]
  generalize textLines text = lines at *
  constructor
  · intro h
    have hline : ∀ k, k < lines.length ∧ lines.length ≤ k + 25 → ∀ x < 80,
        (shownAt lines x k).getD 32 = (letterAt lines k x).getD 32 ∧
          (letterAt lines k x).getD 32 < 128 := by
      intro k hk x hx
      obtain ⟨y, rfl⟩ : ∃ y, k = lines.length - 25 + y :=
        ⟨k - (lines.length - 25), by omega⟩
      have hcell := h y (by omega) x hx
      rw [← cellOf_eq_iff]
      exact (hcells y (by omega) x hx).symm.trans hcell
    refine ⟨fun k hk x hx c hletter => ?_,
      fun k hk x hlow hx j hj hjk c hletter hnone => ?_⟩
    · have hascii := (hline k hk x hx).2
      rwa [hletter] at hascii
    · have hshown : shownAt lines x k = some c :=
        shownAt_eq_some_iff.2 (.inr ⟨hlow, j, hj, hjk, hletter, hnone⟩)
      have hsame := (hline k hk x hx).1
      rwa [hshown, hnone k hjk (le_refl k)] at hsame
  · rintro ⟨hascii, hleft⟩ y hy x hx
    refine (hcells y hy x hx).trans ((cellOf_eq_iff _ _).2 ?_)
    generalize hk : lines.length - 25 + y = k
    cases hletter : letterAt lines k x with
    | some c =>
        have hlen : k < lines.length := by
          by_contra hout
          rw [letterAt_of_length_le (by omega)] at hletter
          cases hletter
        rw [shownAt_eq_some_iff.2 (.inl hletter)]
        exact ⟨rfl, hascii k ⟨hlen, by omega⟩ x hx c hletter⟩
    | none =>
        refine ⟨?_, by decide⟩
        cases hshown : shownAt lines x k with
        | none => rfl
        | some c =>
            rcases shownAt_eq_some_iff.1 hshown with
              hown | ⟨hlow, j, hj, hjk, hbyte, hnone⟩
            · rw [hletter] at hown
              cases hown
            · refine hleft k ⟨?_, by omega⟩ x hlow hx j hj hjk c hbyte hnone
              by_contra hout
              omega

theorem textLines_eq (text : CString) :
    textLines text = (text.foldl (Sheet.type 10 80) Sheet.empty).lines :=
  laidOut_eq_lines (by decide) text

theorem print_showsText_greeting :
    (print [72, 105, 10, 33] (vgaReset (Screen.boot fun _ => 0))).ShowsText
      [72, 105, 10, 33] := by
  have hlines : textLines [72, 105, 10, 33] = [[72, 105], [33]] :=
    (textLines_eq _).trans rfl
  refine (print_showsText_iff _ (by decide +kernel)).2 ⟨?_, ?_⟩
  · rw [hlines]
    intro k hk x _ c hletter
    have hmem : ∀ line ∈ ([[72, 105], [33]] : List CString), ∀ b ∈ line,
        b < 128 := by
      decide +kernel
    obtain ⟨line, hline, hbyte⟩ := Option.bind_eq_some_iff.1 hletter
    exact hmem line (List.mem_of_getElem? hline) c (List.mem_of_getElem? hbyte)
  · rw [hlines]
    rintro k ⟨hk, -⟩ x - - j hj hjk
    simp only [List.length_cons, List.length_nil] at hk
    omega

/-- The byte 128 is shown in the wrong colour, and the 26th byte of a line in the
last row stays when a newline scrolls. -/
theorem print_not_showsText :
    ¬(print [128] (vgaReset (Screen.boot fun _ => 0))).ShowsText [128] ∧
      ¬(print (List.replicate 24 10 ++ List.replicate 26 120 ++ [10])
        (vgaReset (Screen.boot fun _ => 0))).ShowsText
          (List.replicate 24 10 ++ List.replicate 26 120 ++ [10]) := by
  constructor
  · obtain ⟨hcolor, hcells⟩ := print_cells (Screen.boot fun _ => 0)
      (show ∀ c ∈ [128], c = 10 ∨ 32 ≤ c by decide +kernel)
    intro h
    have hcell := (hcells 0 (by decide) 0 (by decide)).symm.trans
      (h 0 (by decide) 0 (by decide))
    rw [hcolor, textLines_eq] at hcell
    exact absurd hcell (by decide +kernel)
  · obtain ⟨hcolor, hcells⟩ := print_cells (Screen.boot fun _ => 0)
      (show ∀ c ∈ List.replicate 24 10 ++ List.replicate 26 120 ++ [10],
        c = 10 ∨ 32 ≤ c by decide +kernel)
    intro h
    unfold Screen.ShowsText vgaHeight vgaWidth at h
    generalize print (List.replicate 24 10 ++ List.replicate 26 120 ++ [10])
      (vgaReset (Screen.boot fun _ => 0)) = shown at hcolor hcells h
    have hcell := (hcells 24 (by decide) 25 (by decide)).symm.trans
      (h 24 (by decide) 25 (by decide))
    rw [hcolor, textLines_eq] at hcell
    exact absurd hcell (by decide +kernel)

end ClOs.Vga
