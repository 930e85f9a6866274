import ClOs.VgaModel

/-!
# The cursor and the indexes of the screen

The cursor stays on the screen whatever is printed or deleted, and its column
does not depend on the row.  The indexes that a call uses are those of the screen
as long as the call opens no line below the last one: `scroll_up` starts at row 0
and moves it to a row in front of the screen.
-/

namespace ClOs.Vga

/-- `vga_row < VGA_HEIGHT` and `vga_colomn <= VGA_WIDTH`. -/
structure Screen.InRange (s : Screen) : Prop where
  row : s.vgaRow < vgaHeight
  colomn : s.vgaColomn ≤ vgaWidth

/-- An index of a cell of the screen. -/
def OnScreen (index : ℤ) : Prop := 0 ≤ index ∧ index < vgaWidth * vgaHeight

def Screen.Within (s : Screen) : Prop := ∀ index ∈ s.accesses, OnScreen index

/-! ## Layout of a text -/

/-- The number of lines that a byte opens when the cursor is in a column. -/
def opened (colomn : ℕ) (c : UInt8) : ℕ :=
  if c = 10 then 1
  else if c = 13 then 0
  else if c = 9 then if 77 ≤ colomn then 1 else 0
  else if colomn = vgaWidth then 1 else 0

/-- The column behind a byte. -/
def colomnAfter (colomn : ℕ) (c : UInt8) : ℕ :=
  if c = 10 then 0
  else if c = 13 then 0
  else if c = 9 then if 77 ≤ colomn then colomn - 76 else colomn + 4
  else if colomn = vgaWidth then 1 else colomn + 1

/-- The number of lines that a text opens. -/
def openedBy : ℕ → CString → ℕ
  | _, [] => 0
  | colomn, c :: text => opened colomn c + openedBy (colomnAfter colomn c) text

def Call.opened (colomn : ℕ) : Call → ℕ
  | .printc c => Vga.opened colomn c
  | .print text => openedBy colomn text
  | .vgaDelete _ => 0
  | .vgaReset => 0

/-- The lines that a call opens are on the screen. -/
def Screen.Fits (s : Screen) (call : Call) : Prop :=
  s.vgaRow + call.opened s.vgaColomn < vgaHeight

instance (s : Screen) (call : Call) : Decidable (s.Fits call) :=
  inferInstanceAs (Decidable (_ < _))

/-! ## Single cells -/

section

variable {s : Screen} {index target source : ℤ} {value : ℕ}

@[simp] theorem store_vgaRow : (store index value s).vgaRow = s.vgaRow := rfl

@[simp] theorem store_vgaColomn :
    (store index value s).vgaColomn = s.vgaColomn := rfl

theorem store_within :
    (store index value s).Within ↔ OnScreen index ∧ s.Within := by
  simp [Screen.Within, store]

theorem copyCell_within :
    (copyCell target source s).Within ↔
      OnScreen target ∧ OnScreen source ∧ s.Within := by
  simp [Screen.Within, copyCell, store]

theorem position_onScreen
    (hrow : s.vgaRow < vgaHeight) (hcolomn : s.vgaColomn < vgaWidth) :
    OnScreen s.position := by
  unfold OnScreen Screen.position vgaWidth vgaHeight at *
  omega

end

/-- A step that moves no cursor. -/
def Steady {α : Type} (step : Screen → α → Screen) : Prop :=
  ∀ s x, (step s x).vgaRow = s.vgaRow ∧ (step s x).vgaColomn = s.vgaColomn

def Uses {α : Type} (step : Screen → α → Screen) (fits : α → Prop) : Prop :=
  ∀ s x, (step s x).Within ↔ fits x ∧ s.Within

theorem Steady.foldl
    {α : Type} {step : Screen → α → Screen} (h : Steady step) (xs : List α)
    (s : Screen) :
    (xs.foldl step s).vgaRow = s.vgaRow ∧
      (xs.foldl step s).vgaColomn = s.vgaColomn := by
  induction xs generalizing s with
  | nil => exact ⟨rfl, rfl⟩
  | cons x xs ih =>
      obtain ⟨hrow, hcolomn⟩ := ih (step s x)
      exact ⟨hrow.trans (h s x).1, hcolomn.trans (h s x).2⟩

theorem Uses.foldl
    {α : Type} {step : Screen → α → Screen} {fits : α → Prop}
    (h : Uses step fits) (xs : List α) (s : Screen) :
    (xs.foldl step s).Within ↔ (∀ x ∈ xs, fits x) ∧ s.Within := by
  induction xs generalizing s with
  | nil => simp
  | cons x xs ih =>
      rw [List.foldl_cons, ih, h]
      simp only [List.mem_cons, forall_eq_or_imp]
      tauto

theorem clearCell_steady (y : ℕ) : Steady (clearCell y) :=
  fun _ _ => ⟨rfl, rfl⟩

theorem clearCell_uses (y : ℕ) :
    Uses (clearCell y) fun x : ℕ => OnScreen ((y : ℤ) * vgaWidth + x) :=
  fun _ _ => store_within

theorem moveRow_steady : Steady moveRow := by
  intro s y
  have hcell : Steady (moveCell y) := fun _ _ => ⟨rfl, rfl⟩
  exact hcell.foldl _ s

theorem moveRow_uses :
    Uses moveRow fun y : ℕ => ∀ x ∈ List.range vgaWidth,
      OnScreen (((y : ℤ) - 1) * vgaWidth + x) ∧
        OnScreen ((y : ℤ) * vgaWidth + x) := by
  intro s y
  have hcell : Uses (moveCell y) fun x : ℕ =>
      OnScreen (((y : ℤ) - 1) * vgaWidth + x) ∧
        OnScreen ((y : ℤ) * vgaWidth + x) := by
    intro s x
    unfold moveCell
    rw [copyCell_within, and_assoc]
  exact hcell.foldl _ s

theorem clearRow_steady : Steady clearRow :=
  fun s y => (clearCell_steady y).foldl _ s

theorem clearRow_uses :
    Uses clearRow fun y : ℕ => ∀ x ∈ List.range vgaWidth,
      OnScreen ((y : ℤ) * vgaWidth + x) :=
  fun s y => (clearCell_uses y).foldl _ s

/-! ## New lines -/

theorem scrollUp_steady (s : Screen) :
    (scrollUp s).vgaRow = s.vgaRow ∧
      (scrollUp s).vgaColomn = s.vgaColomn := by
  have hmove := moveRow_steady.foldl (List.range vgaHeight) s
  have hclear := (clearCell_steady (vgaHeight - 1)).foldl
    (List.range vgaHeight) ((List.range vgaHeight).foldl moveRow s)
  unfold scrollUp
  exact ⟨hclear.1.trans hmove.1, hclear.2.trans hmove.2⟩

/-- Scrolling moves row 0 to a place in front of the screen. -/
theorem scrollUp_not_within (s : Screen) : ¬(scrollUp s).Within := by
  intro hwithin
  unfold scrollUp at hwithin
  rw [(clearCell_uses _).foldl, moveRow_uses.foldl] at hwithin
  have hheight : 0 ∈ List.range vgaHeight := List.mem_range.2 (by decide)
  have hwidth : 0 ∈ List.range vgaWidth := List.mem_range.2 (by decide)
  have hfirst := (hwithin.2.1 0 hheight 0 hwidth).1
  unfold OnScreen vgaWidth at hfirst
  omega

theorem newLine_spec (s : Screen) (hrow : s.vgaRow < vgaHeight) :
    (newLine s).vgaColomn = 0 ∧
      (newLine s).vgaRow = min (s.vgaRow + 1) (vgaHeight - 1) ∧
        ((newLine s).Within ↔ s.vgaRow + 1 < vgaHeight ∧ s.Within) := by
  unfold vgaHeight at hrow
  unfold newLine
  split_ifs with hlast
  · unfold vgaHeight at hlast ⊢
    refine ⟨rfl, ?_, ?_⟩
    · simp only
      omega
    · exact ⟨fun h => ⟨by omega, h⟩, fun h => h.2⟩
  · refine ⟨rfl, ?_, ?_⟩
    · simp only [(scrollUp_steady s).1]
      unfold vgaHeight at hlast ⊢
      omega
    · have hnot := scrollUp_not_within s
      generalize scrollUp s = moved at hnot ⊢
      refine iff_of_false hnot ?_
      unfold vgaHeight at hlast ⊢
      omega

/-! ## Bytes -/

/-- What a part of a call does to the cursor, and when its indexes are those of
the screen. -/
structure Moves (s next : Screen) (colomn lines : ℕ) : Prop where
  colomn : next.vgaColomn = colomn
  row : next.vgaRow = min (s.vgaRow + lines) (vgaHeight - 1)
  within : next.Within ↔ s.vgaRow + lines < vgaHeight ∧ s.Within

theorem Moves.trans
    {s mid next : Screen} {colomn colomn' lines lines' : ℕ}
    (h : Moves s mid colomn lines) (h' : Moves mid next colomn' lines') :
    Moves s next colomn' (lines + lines') := by
  have hrow := h.row
  unfold vgaHeight at hrow
  refine ⟨h'.colomn, ?_, ?_⟩
  · rw [h'.row, h.row]
    unfold vgaHeight
    omega
  · rw [h'.within, h.within, h.row]
    unfold vgaHeight
    constructor
    · rintro ⟨hnext, hmid, hs⟩
      exact ⟨by omega, hs⟩
    · rintro ⟨hnext, hs⟩
      exact ⟨by omega, by omega, hs⟩

theorem Moves.inRange
    {s next : Screen} {colomn lines : ℕ} (h : Moves s next colomn lines)
    (hcolomn : colomn ≤ vgaWidth) : next.InRange := by
  refine ⟨?_, by rw [h.colomn]; exact hcolomn⟩
  rw [h.row]
  unfold vgaHeight
  omega

theorem newLine_moves {s : Screen} (hrow : s.vgaRow < vgaHeight) :
    Moves s (newLine s) 0 1 := by
  obtain ⟨hcolomn, hnext, hwithin⟩ := newLine_spec s hrow
  exact ⟨hcolomn, hnext, hwithin⟩

theorem stay_moves
    {s next : Screen} {colomn : ℕ} (hrow : s.vgaRow < vgaHeight)
    (hcolomn : next.vgaColomn = colomn) (hsame : next.vgaRow = s.vgaRow)
    (hwithin : next.Within ↔ s.Within) : Moves s next colomn 0 := by
  refine ⟨hcolomn, ?_, ?_⟩
  · rw [hsame]
    unfold vgaHeight at hrow ⊢
    omega
  · rw [hwithin, Nat.add_zero]
    exact ⟨fun h => ⟨hrow, h⟩, fun h => h.2⟩

theorem wrapLine_moves {s : Screen} (h : s.InRange) :
    Moves s (wrapLine s) (if s.vgaColomn = vgaWidth then 0 else s.vgaColomn)
      (if s.vgaColomn = vgaWidth then 1 else 0) := by
  unfold wrapLine
  split_ifs with hwrap
  · exact newLine_moves h.row
  · exact stay_moves h.row rfl rfl Iff.rfl

/-- A byte is put into the cell under the cursor. -/
theorem Moves.put
    {s next : Screen} {colomn lines value : ℕ} (h : Moves s next colomn lines)
    (hcolomn : colomn < vgaWidth) :
    Moves s (nextColomn (store next.position value next)) (colomn + 1)
      lines := by
  have hrow : next.vgaRow < vgaHeight := (h.inRange hcolomn.le).row
  have hposition : OnScreen next.position :=
    position_onScreen hrow (by rw [h.colomn]; exact hcolomn)
  refine ⟨?_, h.row, ?_⟩
  · unfold nextColomn
    simp only [store_vgaColomn, h.colomn]
    unfold vgaWidth at hcolomn
    omega
  · rw [← h.within]
    have hstore : (store next.position value next).Within ↔ next.Within :=
      store_within.trans (and_iff_right hposition)
    exact hstore

/-- One round of the loop for a tab. -/
theorem tab_moves {s : Screen} (h : s.InRange) :
    Moves s (nextColomn (wrapLine s))
      (if s.vgaColomn = vgaWidth then 1 else s.vgaColomn + 1)
      (if s.vgaColomn = vgaWidth then 1 else 0) := by
  have hwrap := wrapLine_moves h
  have hcolomn := h.colomn
  refine ⟨?_, hwrap.row, hwrap.within⟩
  unfold nextColomn
  simp only [hwrap.colomn]
  unfold vgaWidth at hcolomn ⊢
  split_ifs <;> omega

/-- Some rounds of the loop for a tab, at most a row. -/
theorem tabs_moves
    {s : Screen} (h : s.InRange) {count : ℕ} (hcount : count < vgaWidth) :
    Moves s ((List.range count).foldl (fun s _ => nextColomn (wrapLine s)) s)
      (if vgaWidth < s.vgaColomn + count then s.vgaColomn + count - vgaWidth
        else s.vgaColomn + count)
      (if vgaWidth < s.vgaColomn + count then 1 else 0) := by
  have hcolomn := h.colomn
  induction count with
  | zero =>
      rw [if_neg (by omega), if_neg (by omega)]
      exact stay_moves h.row rfl rfl Iff.rfl
  | succ count ih =>
      have hfront := ih (by omega)
      rw [List.range_succ, List.foldl_append, List.foldl_cons, List.foldl_nil]
      have hmid := hfront.inRange (by split_ifs <;> omega)
      have hall := hfront.trans (tab_moves hmid)
      rw [hfront.colomn] at hall
      unfold vgaWidth at *
      convert hall using 1 <;> split_ifs <;> omega

theorem printc_moves {s : Screen} (h : s.InRange) (c : UInt8) :
    Moves s (printc s c) (colomnAfter s.vgaColomn c)
      (opened s.vgaColomn c) := by
  have hcolomn := h.colomn
  have hwrap := wrapLine_moves h
  unfold printc colomnAfter opened
  split_ifs with hline hreturn htab hfour hend
  · exact newLine_moves h.row
  · exact stay_moves h.row rfl rfl Iff.rfl
  · have htabs := tabs_moves h (by decide : 4 < vgaWidth)
    unfold vgaWidth at htabs
    rwa [if_pos (by omega), if_pos (by omega)] at htabs
  · have htabs := tabs_moves h (by decide : 4 < vgaWidth)
    unfold vgaWidth at htabs
    rwa [if_neg (by omega), if_neg (by omega)] at htabs
  · rw [if_pos hend, if_pos hend] at hwrap
    exact hwrap.put (by decide)
  · rw [if_neg hend, if_neg hend] at hwrap
    have hlt : s.vgaColomn < vgaWidth := lt_of_le_of_ne hcolomn hend
    exact hwrap.put hlt

/-! ## Calls -/

theorem colomnAfter_le {colomn : ℕ} (h : colomn ≤ vgaWidth) (c : UInt8) :
    colomnAfter colomn c ≤ vgaWidth := by
  unfold colomnAfter
  unfold vgaWidth at *
  split_ifs <;> omega

theorem print_moves {s : Screen} (h : s.InRange) (text : CString) :
    (print text s).InRange ∧ ((print text s).Within ↔
      s.vgaRow + openedBy s.vgaColomn text < vgaHeight ∧ s.Within) := by
  induction text generalizing s with
  | nil => exact ⟨h, (and_iff_right h.row).symm⟩
  | cons c text ih =>
      have hfirst := printc_moves h c
      have hmid := hfirst.inRange (colomnAfter_le h.colomn c)
      obtain ⟨hrange, hwithin⟩ := ih hmid
      refine ⟨hrange, hwithin.trans ?_⟩
      rw [hfirst.within, hfirst.row, hfirst.colomn, openedBy]
      unfold vgaHeight
      constructor
      · rintro ⟨hrest, hline, hs⟩
        exact ⟨by omega, hs⟩
      · rintro ⟨hall, hs⟩
        exact ⟨by omega, by omega, hs⟩

theorem deleteCell_spec
    {s : Screen} (h : s.InRange) (hstart : ¬(s.vgaColomn = 0 ∧ s.vgaRow = 0)) :
    (deleteCell s).InRange ∧ ((deleteCell s).Within ↔ s.Within) := by
  have hrow := h.row
  have hcolomn := h.colomn
  unfold vgaHeight at hrow
  unfold vgaWidth at hcolomn
  unfold deleteCell
  split_ifs with hzero
  · have hposition : OnScreen (Screen.position { s with
        vgaRow := (s.vgaRow + 255) % 256, vgaColomn := vgaWidth - 1 }) :=
      position_onScreen (by unfold vgaHeight; simp only; omega)
        (by unfold vgaWidth; simp only; omega)
    refine ⟨⟨?_, ?_⟩, store_within.trans (and_iff_right hposition)⟩
    · simp only [store_vgaRow]
      unfold vgaHeight
      omega
    · simp only [store_vgaColomn]
      decide
  · have hposition : OnScreen (previousColomn s).position :=
      position_onScreen h.row (by
        unfold previousColomn vgaWidth
        simp only
        omega)
    refine ⟨⟨h.row, ?_⟩, store_within.trans (and_iff_right hposition)⟩
    unfold previousColomn vgaWidth
    simp only [store_vgaColomn]
    omega

theorem vgaDelete_spec {s : Screen} (h : s.InRange) (count : ℕ) :
    (vgaDelete count s).InRange ∧
      ((vgaDelete count s).Within ↔ s.Within) := by
  induction count generalizing s with
  | zero => exact ⟨h, Iff.rfl⟩
  | succ count ih =>
      unfold vgaDelete
      split_ifs with hstart
      · exact ⟨h, Iff.rfl⟩
      · obtain ⟨hrange, hwithin⟩ := deleteCell_spec h hstart
        obtain ⟨hrange', hwithin'⟩ := ih hrange
        exact ⟨hrange', hwithin'.trans hwithin⟩

theorem vgaReset_spec (s : Screen) :
    (vgaReset s).InRange ∧ ((vgaReset s).Within ↔ s.Within) := by
  unfold vgaReset
  constructor
  · obtain ⟨hrow, hcolomn⟩ := clearRow_steady.foldl (List.range vgaHeight)
      { s with
        vgaColomn := 0, vgaRow := 0, currentVgaColor := defaultVgaColor }
    refine ⟨?_, ?_⟩
    · rw [hrow]
      unfold vgaHeight
      simp only
      omega
    · rw [hcolomn]
      exact Nat.zero_le _
  · rw [clearRow_uses.foldl]
    refine and_iff_right fun y hy x hx => ?_
    rw [List.mem_range] at hy hx
    unfold OnScreen
    unfold vgaHeight at *
    unfold vgaWidth at *
    omega

/-- What a call does to the cursor, and when its indexes are those of the
screen. -/
theorem serve_spec {s : Screen} (h : s.InRange) (call : Call) :
    (s.serve call).InRange ∧
      ((s.serve call).Within ↔ s.Fits call ∧ s.Within) := by
  have hrow : s.vgaRow + 0 < vgaHeight := h.row
  cases call with
  | printc c =>
      have hmoves := printc_moves h c
      exact ⟨hmoves.inRange (colomnAfter_le h.colomn c), hmoves.within⟩
  | print text => exact print_moves h text
  | vgaDelete count =>
      obtain ⟨hrange, hwithin⟩ := vgaDelete_spec h count
      exact ⟨hrange, hwithin.trans (and_iff_right hrow).symm⟩
  | vgaReset =>
      obtain ⟨hrange, hwithin⟩ := vgaReset_spec s
      exact ⟨hrange, hwithin.trans (and_iff_right hrow).symm⟩

/-! ## Runs -/

theorem run_append (s : Screen) (calls rest : List Call) :
    s.run (calls ++ rest) = (s.run calls).run rest :=
  List.foldl_append

theorem run_concat (s : Screen) (calls : List Call) (call : Call) :
    s.run (calls ++ [call]) = (s.run calls).serve call := by
  unfold Screen.run
  rw [List.foldl_append, List.foldl_cons, List.foldl_nil]

theorem run_inRange {s : Screen} (h : s.InRange) (calls : List Call) :
    (s.run calls).InRange := by
  induction calls using List.reverseRecOn with
  | nil => exact h
  | append_singleton calls call ih =>
      rw [run_concat]
      exact (serve_spec ih call).1

/-- Every call of a run keeps to the lines of the screen. -/
def Screen.AllFit (s : Screen) (calls : List Call) : Prop :=
  ∀ front call, front ++ [call] <+: calls → (s.run front).Fits call

theorem allFit_concat (s : Screen) (calls : List Call) (call : Call) :
    s.AllFit (calls ++ [call]) ↔ s.AllFit calls ∧ (s.run calls).Fits call := by
  constructor
  · intro h
    exact ⟨fun front next hfront =>
      h front next (hfront.trans (List.prefix_append ..)),
      h calls call List.prefix_rfl⟩
  · rintro ⟨hcalls, hlast⟩ front next hfront
    rcases List.prefix_concat_iff.1 hfront with heq | hfront
    · obtain ⟨rfl, hnext⟩ := List.append_inj' heq rfl
      cases hnext
      exact hlast
    · exact hcalls front next hfront

theorem run_within {s : Screen} (h : s.InRange) (calls : List Call) :
    (s.run calls).Within ↔ s.AllFit calls ∧ s.Within := by
  induction calls using List.reverseRecOn with
  | nil =>
      refine (and_iff_right fun front call hfront => ?_).symm
      have hnil := List.prefix_nil.1 hfront
      simp at hnil
  | append_singleton calls call ih =>
      rw [run_concat, (serve_spec (run_inRange h calls) call).2, ih,
        allFit_concat]
      tauto

/-- The cursor stays on the screen in every run, and the indexes used are those
of the screen if and only if no call opens a line below the last one. -/
theorem run_onScreen_iff
    {s : Screen} (h : s.InRange) (hfresh : s.accesses = [])
    (calls : List Call) :
    (∀ front, front <+: calls → (s.run front).InRange) ∧
      ((∀ index ∈ (s.run calls).accesses, OnScreen index) ↔
        s.AllFit calls) := by
  have hwithin : s.Within := by
    unfold Screen.Within
    rw [hfresh]
    exact fun _ hmem => absurd hmem List.not_mem_nil
  exact ⟨fun front _ => run_inRange h front,
    (run_within h calls).trans (and_iff_left hwithin)⟩

theorem boot_inRange (vga : ℤ → ℕ) : (Screen.boot vga).InRange :=
  ⟨show 0 < vgaHeight by decide, show 0 ≤ vgaWidth by decide⟩

theorem run_onScreen_iff_boot :
    (∀ front, front <+: [Call.vgaReset, .print [72, 105, 10], .vgaDelete 2] →
      ((Screen.boot fun _ => 0).run front).InRange) ∧
    ((∀ index ∈ ((Screen.boot fun _ => 0).run
        [.vgaReset, .print [72, 105, 10], .vgaDelete 2]).accesses,
        OnScreen index) ↔
      (Screen.boot fun _ => 0).AllFit
        [.vgaReset, .print [72, 105, 10], .vgaDelete 2]) :=
  run_onScreen_iff (boot_inRange _) rfl _

/-- Printing 25 newlines moves row 0 to the 80 cells in front of the screen. -/
theorem run_newlines_not_onScreen :
    ¬∀ index ∈ ((Screen.boot fun _ => 0).run
      [.print (List.replicate 25 10)]).accesses, OnScreen index := by
  intro h
  have hfits := ((run_within (boot_inRange _) _).1 h).1 []
    (.print (List.replicate 25 10)) List.prefix_rfl
  exact absurd hfits (by decide)

end ClOs.Vga
