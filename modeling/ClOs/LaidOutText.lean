import Mathlib.Tactic

/-!
# Texts laid out in lines

A text is laid out on an endless sheet: a mark breaks the line, and a letter
behind a full line opens the next one.  Typing the letters one by one gives the
lines that cutting the text at its marks, and each piece at the width, gives.
-/

namespace ClOs

variable {α : Type*}

/-- The finished lines, the first one on top, and the line being written. -/
structure Sheet (α : Type*) where
  above : List (List α)
  line : List α

namespace Sheet

def empty : Sheet α where
  above := []
  line := []

def lines (sheet : Sheet α) : List (List α) := sheet.above ++ [sheet.line]

def opened (sheet : Sheet α) : Sheet α where
  above := sheet.lines
  line := []

def put (sheet : Sheet α) (letter : α) : Sheet α where
  above := sheet.above
  line := sheet.line ++ [letter]

def type [DecidableEq α] (mark : α) (width : ℕ) (sheet : Sheet α)
    (letter : α) : Sheet α :=
  if letter = mark then sheet.opened
  else if sheet.line.length = width then sheet.opened.put letter
  else sheet.put letter

@[simp] theorem opened_above (sheet : Sheet α) :
    sheet.opened.above = sheet.above ++ [sheet.line] := rfl

@[simp] theorem opened_line (sheet : Sheet α) : sheet.opened.line = [] := rfl

@[simp] theorem put_above (sheet : Sheet α) (letter : α) :
    (sheet.put letter).above = sheet.above := rfl

@[simp] theorem put_line (sheet : Sheet α) (letter : α) :
    (sheet.put letter).line = sheet.line ++ [letter] := rfl

section

variable [DecidableEq α] {mark : α} {width : ℕ} {sheet : Sheet α} {letter : α}

theorem type_mark : sheet.type mark width mark = sheet.opened :=
  if_pos rfl

theorem type_full (hmark : letter ≠ mark) (hfull : sheet.line.length = width) :
    sheet.type mark width letter = sheet.opened.put letter :=
  (if_neg hmark).trans (if_pos hfull)

theorem type_open (hmark : letter ≠ mark) (hfull : sheet.line.length ≠ width) :
    sheet.type mark width letter = sheet.put letter :=
  (if_neg hmark).trans (if_neg hfull)

end

end Sheet

def cutAt (width : ℕ) (piece : List α) : List (List α) :=
  if width = 0 ∨ piece.length ≤ width then [piece]
  else piece.take width :: cutAt width (piece.drop width)
termination_by piece.length
decreasing_by
  rw [List.length_drop]
  omega

def laidOut [DecidableEq α] (mark : α) (width : ℕ) (text : List α) :
    List (List α) :=
  (text.splitOn mark).flatMap (cutAt width)

theorem cutAt_short
    {width : ℕ} {piece : List α} (h : piece.length ≤ width) :
    cutAt width piece = [piece] := by
  rw [cutAt, if_pos (.inr h)]

theorem cutAt_full
    {width : ℕ} {line piece : List α}
    (hwidth : 0 < width) (hline : line.length = width) (hne : piece ≠ []) :
    cutAt width (line ++ piece) = line :: cutAt width piece := by
  have hpos := List.length_pos_of_ne_nil hne
  rw [cutAt, if_neg (by rw [List.length_append]; omega), ← hline,
    List.take_left, List.drop_left]

section

variable [DecidableEq α] {mark : α} {width : ℕ}

/-- What typing adds to a sheet: the first piece goes on behind the last line. -/
theorem foldl_type_lines
    (hwidth : 0 < width) (text : List α) {sheet : Sheet α}
    (hline : sheet.line.length ≤ width) :
    (text.foldl (Sheet.type mark width) sheet).lines = sheet.above ++
      ((text.splitOn mark).modifyHead (sheet.line ++ ·)).flatMap
        (cutAt width) := by
  induction text generalizing sheet with
  | nil => simp [Sheet.lines, cutAt_short hline]
  | cons letter text ih =>
      obtain ⟨piece, pieces, hsplit⟩ :=
        List.exists_cons_of_ne_nil (List.splitOn_ne_nil mark text)
      rw [List.foldl_cons, List.splitOn_cons_eq_if_modifyHead]
      by_cases hmark : letter = mark
      · subst hmark
        rw [Sheet.type_mark, ih (by simp), hsplit]
        simp [cutAt_short hline]
      · rw [if_neg (by simpa using hmark)]
        by_cases hfull : sheet.line.length = width
        · rw [Sheet.type_full hmark hfull, ih (by simpa [Nat.succ_le_iff] using hwidth),
            hsplit]
          simp [cutAt_full hwidth hfull]
        · rw [Sheet.type_open hmark hfull, ih (by simp; omega), hsplit]
          simp

theorem laidOut_eq_lines (hwidth : 0 < width) (text : List α) :
    laidOut mark width text =
      (text.foldl (Sheet.type mark width) Sheet.empty).lines := by
  rw [foldl_type_lines hwidth text (Nat.zero_le _)]
  obtain ⟨piece, pieces, hsplit⟩ :=
    List.exists_cons_of_ne_nil (List.splitOn_ne_nil mark text)
  simp [laidOut, hsplit, Sheet.empty]

end

/-! ## Letters of a sheet -/

/-- The letter in column `x` of line `k`. -/
def letterAt (lines : List (List α)) (k x : ℕ) : Option α :=
  lines[k]?.bind fun row => row[x]?

theorem letterAt_of_length_le
    {lines : List (List α)} {k : ℕ} (h : lines.length ≤ k) (x : ℕ) :
    letterAt lines k x = none := by
  unfold letterAt
  rw [List.getElem?_eq_none h, Option.bind_none]

/-- The elements of a list, and the one behind them. -/
theorem getElem?_snoc (list : List α) (last : α) (k : ℕ) :
    (list ++ [last])[k]? = if k = list.length then some last else list[k]? := by
  split_ifs with hk
  · rw [hk, List.getElem?_concat_length]
  · rcases Nat.lt_or_gt_of_ne hk with hk | hk
    · rw [List.getElem?_append_left hk]
    · rw [List.getElem?_eq_none (by simpa using hk),
        List.getElem?_eq_none (by omega)]

theorem letterAt_append
    (above : List (List α)) (last : List α) (k x : ℕ) :
    letterAt (above ++ [last]) k x =
      if k = above.length then last[x]? else letterAt above k x := by
  unfold letterAt
  rw [getElem?_snoc]
  split_ifs with hk
  · rfl
  · rfl

/-- An empty line shows nothing. -/
theorem letterAt_opened (sheet : Sheet α) (k x : ℕ) :
    letterAt sheet.opened.lines k x = letterAt sheet.lines k x := by
  unfold Sheet.lines
  rw [letterAt_append, sheet.opened_line]
  split_ifs with hk
  · rw [letterAt_of_length_le (by rw [hk]; rfl), List.getElem?_nil]
  · rfl

theorem letterAt_put
    (sheet : Sheet α) (letter : α) (k x : ℕ) :
    letterAt (sheet.put letter).lines k x =
      if k = sheet.above.length ∧ x = sheet.line.length then some letter
      else letterAt sheet.lines k x := by
  unfold Sheet.lines
  rw [letterAt_append, letterAt_append, sheet.put_above, sheet.put_line]
  by_cases hk : k = sheet.above.length
  · rw [if_pos hk, if_pos hk, getElem?_snoc]
    exact if_congr (by simp [hk]) rfl rfl
  · rw [if_neg hk, if_neg hk, if_neg (fun h => hk h.1)]

end ClOs
