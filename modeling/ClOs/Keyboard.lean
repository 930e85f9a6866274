import ClOs.VgaDeletion

/-!
# The keyboard

`keyboard_handler` reads one scancode, keeps the state of the shift and caps lock
keys and hands what a key stands for to the screen.  What a sequence of scancodes
types is said without that state: shift is down if the last shift key to move went
down, and caps lock is on if it was pressed an odd number of times.
-/

namespace ClOs.Keyboard

open Vga (Screen printc vgaDelete vgaReset newLine wrapLine nextColomn store
  defaultVgaColor cellOf Plain)

/-! ## The handler -/

def keyLshift : UInt8 := 0x2A
def keyRshift : UInt8 := 0x36
def keyCaps : UInt8 := 0x3A
def keySpace : UInt8 := 0x39
def keyEnter : UInt8 := 0x1C
def keyBackspace : UInt8 := 0x0E
def keyTab : UInt8 := 0x0F

/-- `lower_case_scancode`, up to its last entry that is not 0. -/
def lowerCaseScancode : List UInt8 :=
  [0, 0, 49, 50, 51, 52, 53, 54, 55, 56, 57, 48, 45, 61, 8, 9,
    113, 119, 101, 114, 116, 121, 117, 105, 111, 112, 91, 93, 10, 0,
    97, 115, 100, 102, 103, 104, 106, 107, 108, 59, 39, 96, 0, 92,
    122, 120, 99, 118, 98, 110, 109, 44, 46, 47, 0, 42, 0, 32]

/-- `upper_case_scancode`, up to its last entry that is not 0. -/
def upperCaseScancode : List UInt8 :=
  [0, 0, 33, 64, 35, 36, 37, 94, 38, 42, 40, 41, 95, 43, 8, 9,
    81, 87, 69, 82, 84, 89, 85, 73, 79, 80, 123, 125, 10, 0,
    65, 83, 68, 70, 71, 72, 74, 75, 76, 58, 34, 126, 0, 124,
    90, 88, 67, 86, 66, 78, 77, 60, 62, 63, 0, 42, 0, 32]

/-- The static data of `keyboard.c` and the screen. -/
structure Console where
  capsLock : Bool
  shiftPressed : Bool
  screen : Screen

/-- The console when the kernel starts. -/
def Console.boot (screen : Screen) : Console where
  capsLock := false
  shiftPressed := false
  screen := screen

def printKey (table : List UInt8) (scancode : UInt8) (s : Screen) : Screen :=
  let c := table.getD scancode.toNat 0
  if c = 0 then s else printc s c

/-- `keyboard_handler` for the scancode that it reads.  The acknowledgement of the
interrupt is left out. -/
def keyboardHandler (k : Console) (scancode : UInt8) : Console :=
  if scancode &&& 0x80 ≠ 0 then
    let key := scancode &&& 0x7F
    if key = keyLshift ∨ key = keyRshift then { k with shiftPressed := false }
    else k
  else if scancode = keyCaps then { k with capsLock := !k.capsLock }
  else if scancode = keyLshift ∨ scancode = keyRshift then
    { k with shiftPressed := true }
  else if scancode = keySpace then { k with screen := printc k.screen 32 }
  else if scancode = keyEnter then { k with screen := printc k.screen 10 }
  else if scancode = keyBackspace then { k with screen := vgaDelete 1 k.screen }
  else if scancode = keyTab then { k with screen := printc k.screen 9 }
  else if k.shiftPressed ∨ k.capsLock then
    { k with screen := printKey upperCaseScancode scancode k.screen }
  else { k with screen := printKey lowerCaseScancode scancode k.screen }

def Console.receive (k : Console) (codes : List UInt8) : Console :=
  codes.foldl keyboardHandler k

/-! ## What is typed -/

/-- A key that goes up. -/
def isRelease (code : UInt8) : Bool := code &&& 0x80 ≠ 0

def isShift (code : UInt8) : Bool :=
  code &&& 0x7F = keyLshift || code &&& 0x7F = keyRshift

/-- The last shift key to move went down. -/
def held (codes : List UInt8) : Bool :=
  (codes.filter isShift).getLast?.any (fun code => !isRelease code)

/-- Caps lock was pressed an odd number of times. -/
def locked (codes : List UInt8) : Bool := codes.count keyCaps % 2 = 1

/-- The byte on a key. -/
def letter (upper : Bool) (code : UInt8) : UInt8 :=
  (if upper then upperCaseScancode else lowerCaseScancode).getD code.toNat 0

/-- What a key asks of the screen. -/
def meaning (upper : Bool) (code : UInt8) : Option Vga.Call :=
  if isRelease code then none
  else if code = keyBackspace then some (.vgaDelete 1)
  else if letter upper code = 0 then none
  else some (.printc (letter upper code))

/-- What scancodes ask of the screen behind those received before. -/
def typed : List UInt8 → List UInt8 → List Vga.Call
  | _, [] => []
  | before, code :: rest =>
      (meaning (held before || locked before) code).toList ++
        typed (before ++ [code]) rest

section

variable {k : Console} {s : Screen} {before codes rest : List UInt8}
  {code c : UInt8} {upper : Bool}

theorem held_concat (before : List UInt8) (code : UInt8) :
    held (before ++ [code]) =
      if isShift code then !isRelease code else held before := by
  unfold held
  rw [List.filter_append]
  split_ifs with hshift
  · rw [List.filter_cons_of_pos hshift, List.filter_nil, List.getLast?_concat]
    rfl
  · rw [List.filter_cons_of_neg hshift, List.filter_nil, List.append_nil]

theorem locked_concat (before : List UInt8) (code : UInt8) :
    locked (before ++ [code]) =
      if code = keyCaps then !locked before else locked before := by
  unfold locked
  rw [List.count_append, List.count_singleton]
  by_cases hcaps : code = keyCaps
  · rw [if_pos hcaps, if_pos (by simp [hcaps]), ← decide_not, decide_eq_decide]
    omega
  · rw [if_neg hcaps, if_neg (by simp [hcaps]), Nat.add_zero]

theorem typed_append (before codes rest : List UInt8) :
    typed before (codes ++ rest) =
      typed before codes ++ typed (before ++ codes) rest := by
  induction codes generalizing before with
  | nil => simp [typed]
  | cons code codes ih =>
      rw [List.cons_append, typed, typed, ih, List.append_assoc]
      simp

theorem receive_append (k : Console) (codes rest : List UInt8) :
    k.receive (codes ++ rest) = (k.receive codes).receive rest :=
  List.foldl_append

/-! ## The handler keeps to it -/

/-- The bits that tell whether a key goes up are not those of the key. -/
theorem eq_of_not_release (h : isRelease code = false) :
    code &&& 0x7F = code := by
  have hall : ∀ n < 256, (UInt8.ofNat n &&& 0x80 = 0) →
      UInt8.ofNat n &&& 0x7F = UInt8.ofNat n := by
    decide +kernel
  have hcode := hall code.toNat code.toNat_lt
  rw [UInt8.ofNat_toNat] at hcode
  refine hcode ?_
  simpa [isRelease] using h

/-- A key that means the same in both cases. -/
theorem meaning_of_both
    {call : Option Vga.Call} (hlower : meaning false code = call)
    (hupper : meaning true code = call) (upper : Bool) :
    meaning upper code = call := by
  cases upper with
  | false => exact hlower
  | true => exact hupper

theorem printKey_eq
    (upper : Bool) (hpress : isRelease code = false)
    (hbackspace : code ≠ keyBackspace) (s : Screen) :
    printKey (if upper then upperCaseScancode else lowerCaseScancode) code s =
      s.run (meaning upper code).toList := by
  have hletter : (if upper then upperCaseScancode else
      lowerCaseScancode).getD code.toNat 0 = letter upper code := rfl
  unfold printKey meaning
  rw [hletter, hpress, if_neg Bool.false_ne_true, if_neg hbackspace]
  simp only
  split_ifs <;> rfl

/-- One scancode. -/
theorem keyboardHandler_eq (k : Console) (code : UInt8) :
    keyboardHandler k code =
      ⟨if code = keyCaps then !k.capsLock else k.capsLock,
        if isShift code then !isRelease code else k.shiftPressed,
        k.screen.run (meaning (k.shiftPressed || k.capsLock) code).toList⟩ := by
  by_cases hrelease : isRelease code = true
  · have hbit : code &&& 0x80 ≠ 0 := by simpa [isRelease] using hrelease
    have hcaps : code ≠ keyCaps := by
      rintro rfl
      exact absurd hrelease (by decide)
    unfold keyboardHandler meaning
    rw [if_pos hbit, if_neg hcaps, if_pos hrelease]
    unfold isShift
    simp only [hrelease, Bool.or_eq_true, decide_eq_true_eq]
    split_ifs <;> rfl
  by_cases hcaps : code = keyCaps
  · subst hcaps
    rw [@meaning_of_both keyCaps none rfl rfl]
    rfl
  by_cases hleft : code = keyLshift
  · subst hleft
    rw [@meaning_of_both keyLshift none rfl rfl]
    rfl
  by_cases hright : code = keyRshift
  · subst hright
    rw [@meaning_of_both keyRshift none rfl rfl]
    rfl
  by_cases hspace : code = keySpace
  · subst hspace
    rw [@meaning_of_both keySpace (some (.printc 32)) rfl rfl]
    rfl
  by_cases henter : code = keyEnter
  · subst henter
    rw [@meaning_of_both keyEnter (some (.printc 10)) rfl rfl]
    rfl
  by_cases hbackspace : code = keyBackspace
  · subst hbackspace
    rw [@meaning_of_both keyBackspace (some (.vgaDelete 1)) rfl rfl]
    rfl
  by_cases htab : code = keyTab
  · subst htab
    rw [@meaning_of_both keyTab (some (.printc 9)) rfl rfl]
    rfl
  rw [Bool.not_eq_true] at hrelease
  have hbit : ¬code &&& 0x80 ≠ 0 := by simpa [isRelease] using hrelease
  have hmoved : isShift code = false := by
    unfold isShift
    rw [eq_of_not_release hrelease]
    simp [hleft, hright]
  unfold keyboardHandler
  rw [if_neg hbit, if_neg hcaps, if_neg (not_or.2 ⟨hleft, hright⟩),
    if_neg hspace, if_neg henter, if_neg hbackspace, if_neg htab, if_neg hcaps,
    hmoved, ← printKey_eq _ hrelease hbackspace]
  cases k.shiftPressed <;> cases k.capsLock <;> rfl

/-- After any scancodes the keyboard knows which keys are down, and the screen has
got what was typed. -/
theorem receive_boot (s : Screen) (codes : List UInt8) :
    (Console.boot s).receive codes =
      ⟨locked codes, held codes, s.run (typed [] codes)⟩ := by
  induction codes using List.reverseRecOn with
  | nil => rfl
  | append_singleton codes code ih =>
      rw [receive_append, ih, typed_append, List.nil_append]
      unfold Console.receive
      rw [List.foldl_cons, List.foldl_nil, keyboardHandler_eq, held_concat,
        locked_concat, typed, typed, List.append_nil, Vga.run_append]

/-! ## Clean screens -/

/-- A byte that is shown as it is. -/
def Printable (c : UInt8) : Prop := 32 ≤ c ∧ c ≤ 126

instance (c : UInt8) : Decidable (Printable c) :=
  inferInstanceAs (Decidable (_ ∧ _))

structure Clean (s : Screen) : Prop where
  color : s.currentVgaColor = defaultVgaColor
  cells : ∀ y < 25, ∀ x < 80, ∃ c, Printable c ∧
    s.vga ((y : ℕ) * 80 + (x : ℕ)) = cellOf (some c)

/-- A key types a tab, a line break or a printable byte. -/
theorem letter_cases (upper : Bool) (hbackspace : code ≠ keyBackspace)
    (hletter : letter upper code ≠ 0) :
    letter upper code = 9 ∨ letter upper code = 10 ∨
      Printable (letter upper code) := by
  have hcases : ∀ table ∈ [lowerCaseScancode, upperCaseScancode],
      ∀ i < 58, i ≠ 14 → table.getD i 0 = 0 ∨ table.getD i 0 = 9 ∨
        table.getD i 0 = 10 ∨ (32 ≤ table.getD i 0 ∧ table.getD i 0 ≤ 126) := by
    decide +kernel
  have hlength : ∀ table ∈ [lowerCaseScancode, upperCaseScancode],
      table.length = 58 := by
    decide
  have hindex : code.toNat ≠ 14 := fun h => hbackspace (UInt8.toNat_inj.1 h)
  unfold letter at hletter ⊢
  have hmem : (if upper then upperCaseScancode else lowerCaseScancode) ∈
      [lowerCaseScancode, upperCaseScancode] := by
    cases upper <;> simp
  generalize (if upper then upperCaseScancode else lowerCaseScancode) = table at *
  by_cases hlt : code.toNat < 58
  · exact (hcases table hmem _ hlt hindex).resolve_left hletter
  · rw [List.getD_eq_getElem?_getD, List.getElem?_eq_none
      (by rw [hlength table hmem]; omega)] at hletter
    exact absurd rfl hletter

/-- What a key asks for is a deletion, a tab, a line break or a printable byte. -/
theorem meaning_cases
    {call : Vga.Call} (h : meaning upper code = some call) :
    call = .vgaDelete 1 ∨
      ∃ c, call = .printc c ∧ (c = 9 ∨ c = 10 ∨ Printable c) := by
  unfold meaning at h
  split_ifs at h with hrelease hbackspace hzero
  · exact .inl (Option.some.inj h).symm
  · exact .inr ⟨_, (Option.some.inj h).symm,
      letter_cases upper hbackspace hzero⟩

theorem printable_blank : Printable 32 := by decide

theorem Clean.blank (h : Clean s) : s.blank = cellOf (some 32) := by
  unfold Screen.blank
  rw [h.color]
  rfl

theorem Clean.store {index : ℤ} {value : ℕ}
    (h : Clean s) (hc : Printable c) (hvalue : value = cellOf (some c)) :
    Clean (store index value s) := by
  refine ⟨h.color, fun y hy x hx => ?_⟩
  rw [Vga.store_vga]
  split_ifs with hindex
  · exact ⟨c, hc, by rw [hvalue, Vga.cellOf_mod]⟩
  · exact h.cells y hy x hx

theorem Clean.newLine (h : Clean s) : Clean (newLine s) := by
  unfold Vga.newLine
  split_ifs with hlast
  · exact ⟨h.color, h.cells⟩
  · have hscrolled := @Vga.scrollUp_vga s
    have hcolor := Vga.scrollUp_color s
    generalize Vga.scrollUp s = scrolled at *
    refine ⟨hcolor.trans h.color, fun y hy x hx => ?_⟩
    simp only
    rw [hscrolled hy hx]
    split_ifs with hup hclear
    · obtain ⟨c, hc, hvga⟩ := h.cells (y + 1) (by omega) x hx
      exact ⟨c, hc, by rw [hvga, Vga.cellOf_mod]⟩
    · exact ⟨32, printable_blank, by rw [h.blank, Vga.cellOf_mod]⟩
    · exact h.cells y hy x hx

theorem Clean.wrapLine (h : Clean s) : Clean (wrapLine s) := by
  unfold Vga.wrapLine
  split_ifs
  · exact h.newLine
  · exact h

theorem Clean.nextColomn (h : Clean s) : Clean (nextColomn s) :=
  ⟨h.color, h.cells⟩

theorem Clean.tabs (h : Clean s) (count : ℕ) :
    Clean ((List.range count).foldl
      (fun s _ => Vga.nextColomn (Vga.wrapLine s)) s) := by
  induction count with
  | zero => exact h
  | succ count ih =>
      rw [List.range_succ, List.foldl_append, List.foldl_cons, List.foldl_nil]
      exact ih.wrapLine.nextColomn

theorem Clean.printc (h : Clean s) (hc : c = 9 ∨ c = 10 ∨ Printable c) :
    Clean (printc s c) := by
  unfold Vga.printc
  split_ifs with hline hreturn htab
  · exact h.newLine
  · exact ⟨h.color, h.cells⟩
  · exact h.tabs 4
  · have hprintable := (hc.resolve_left htab).resolve_left hline
    refine (h.wrapLine.store hprintable ?_).nextColomn
    rw [h.wrapLine.color]
    rfl

theorem Clean.deleteCell (h : Clean s) : Clean (Vga.deleteCell s) := by
  have hmoved : ∀ moved : Screen, Clean moved →
      Clean (Vga.store moved.position moved.blank moved) :=
    fun moved hclean => hclean.store printable_blank hclean.blank
  unfold Vga.deleteCell
  split_ifs
  · exact hmoved _ ⟨h.color, h.cells⟩
  · exact hmoved _ ⟨h.color, h.cells⟩

theorem Clean.serve {call : Vga.Call}
    (h : Clean s) (hcall : call = .vgaDelete 1 ∨
      ∃ c, call = .printc c ∧ (c = 9 ∨ c = 10 ∨ Printable c)) :
    Clean (s.serve call) := by
  rcases hcall with rfl | ⟨c, rfl, hc⟩
  · change Clean (Vga.vgaDelete 1 s)
    unfold Vga.vgaDelete Vga.vgaDelete
    split_ifs
    · exact h
    · exact h.deleteCell
  · exact h.printc hc

theorem clean_vgaReset (s : Screen) : Clean (vgaReset s) := by
  refine ⟨(Vga.shows_vgaReset s).color, fun y hy x hx => ?_⟩
  unfold Vga.vgaReset Vga.vgaHeight
  rw [Vga.clearRows_vga, if_pos (by push_cast; omega)]
  exact ⟨32, printable_blank, Vga.cellOf_mod (some 32)⟩

theorem typed_cases (before codes : List UInt8) :
    ∀ call ∈ typed before codes, call = .vgaDelete 1 ∨
      ∃ c, call = .printc c ∧ (c = 9 ∨ c = 10 ∨ Printable c) := by
  induction codes generalizing before with
  | nil =>
      intro call hcall
      cases hcall
  | cons code rest ih =>
      intro call hcall
      rw [typed, List.mem_append] at hcall
      rcases hcall with hfirst | hrest
      · exact meaning_cases (Option.mem_toList.1 hfirst)
      · exact ih _ call hrest

theorem Clean.run {calls : List Vga.Call}
    (h : Clean s) (hcalls : ∀ call ∈ calls, call = .vgaDelete 1 ∨
      ∃ c, call = .printc c ∧ (c = 9 ∨ c = 10 ∨ Printable c)) :
    Clean (s.run calls) := by
  induction calls using List.reverseRecOn with
  | nil => exact h
  | append_singleton calls call ih =>
      rw [Vga.run_concat]
      exact (ih fun other hother => hcalls other
        (List.mem_append_left _ hother)).serve (hcalls call (by simp))

/-- Whatever keys are pressed on a cleared screen, the cursor stays on it, and every
cell shows a printable byte in the default colour. -/
theorem receive_clean (s : Screen) (codes : List UInt8) :
    ((Console.boot (vgaReset s)).receive codes).screen.InRange ∧
      ∀ y < 25, ∀ x < 80, ∃ c : UInt8, 32 ≤ c ∧ c ≤ 126 ∧
        ((Console.boot (vgaReset s)).receive codes).screen.vga
          ((y : ℕ) * 80 + (x : ℕ)) = c.toNat ||| defaultVgaColor := by
  have hclean := clean_vgaReset s
  have hrange := (Vga.vgaReset_spec s).1
  generalize vgaReset s = cleared at hclean hrange
  rw [receive_boot]
  refine ⟨Vga.run_inRange hrange _, fun y hy x hx => ?_⟩
  obtain ⟨c, hc, hcell⟩ := (hclean.run (typed_cases [] codes)).cells y hy x hx
  have hascii : c < 128 := UInt8.lt_of_le_of_lt hc.2 (by decide)
  exact ⟨c, hc.1, hc.2,
    hcell.trans ((Vga.cellOf_eq_iff (some c) c).2 ⟨rfl, hascii⟩)⟩

/-! ## Backspace -/

theorem typed_backspaces (before : List UInt8) (count : ℕ) :
    typed before (List.replicate count keyBackspace) =
      List.replicate count (.vgaDelete 1) := by
  induction count generalizing before with
  | zero => rfl
  | succ count ih =>
      rw [List.replicate_succ, typed, ih,
        @meaning_of_both keyBackspace (some (.vgaDelete 1)) rfl rfl]
      rfl

theorem vgaDelete_succ (count : ℕ) (s : Screen) :
    vgaDelete (count + 1) s = vgaDelete count (vgaDelete 1 s) := by
  have hone : vgaDelete 1 s =
      if s.vgaColomn = 0 ∧ s.vgaRow = 0 then s else Vga.deleteCell s := rfl
  rw [hone, Vga.vgaDelete]
  split_ifs with hstart
  · cases count with
    | zero => rfl
    | succ count => rw [Vga.vgaDelete, if_pos hstart]
  · rfl

theorem run_deletions (count : ℕ) (s : Screen) :
    s.run (List.replicate count (.vgaDelete 1)) = vgaDelete count s := by
  induction count generalizing s with
  | zero => rfl
  | succ count ih =>
      rw [vgaDelete_succ, ← ih]
      rfl

theorem run_letters (text : CString) (s : Screen) :
    s.run (text.map .printc) = Vga.print text s := by
  unfold Screen.run Vga.print
  rw [List.foldl_map]
  rfl

/-- Deleting as many cells as were filled. -/
theorem erased_of_fills {next : Screen} {count : ℕ}
    (h : Vga.Fills s next count) :
    (vgaDelete count next).position = s.position ∧
      ∀ i, (vgaDelete count next).vga i =
        if s.position ≤ i ∧ i < s.position + count then s.blank % 65536
        else s.vga i := by
  have hpositive : 0 ≤ s.position := by
    unfold Screen.position
    positivity
  have hend := h.position
  have hblank : next.blank = s.blank := by
    unfold Screen.blank
    rw [h.color]
  obtain ⟨hposition, hcells⟩ :=
    Vga.vgaDelete_cells h.inRange (by omega : (count : ℤ) ≤ next.position)
  refine ⟨by rw [hposition]; omega, fun i => ?_⟩
  rw [hcells, hblank, hend]
  by_cases hfilled : s.position ≤ i ∧ i < s.position + count
  · rw [if_pos (by omega), if_pos hfilled]
  · rw [if_neg (by omega), if_neg hfilled]
    exact h.others i hfilled

/-- Text that is typed on lines of the screen and erased by as many backspaces
leaves the cursor where it was and blanks behind it, whatever was done to shift and
caps lock meanwhile. -/
theorem receive_erased
    {text : CString} (h : s.InRange)
    (htyped : typed before codes = text.map .printc)
    (hplain : ∀ c ∈ text, c ≠ 9 ∧ c ≠ 10)
    (hfits : ((Console.boot s).receive before).screen.Fits (.print text)) :
    let shown := ((Console.boot s).receive before).screen
    let erased := ((Console.boot s).receive (before ++ codes ++
      List.replicate text.length keyBackspace)).screen
    erased.position = shown.position ∧
      ∀ i, erased.vga i =
        if shown.position ≤ i ∧ i < shown.position + text.length then
          shown.blank % 65536
        else shown.vga i := by
  have htext : ∀ c ∈ text, Plain c := by
    intro c hc
    have hcall : Vga.Call.printc c ∈ typed before codes := by
      rw [htyped]
      exact List.mem_map_of_mem hc
    have hkey := typed_cases before codes _ hcall
    refine ⟨(hplain c hc).2, ?_, (hplain c hc).1⟩
    rintro rfl
    rcases hkey with hdelete | ⟨c, hc, hcases⟩
    · cases hdelete
    · cases hc
      exact absurd hcases (by decide)
  rw [receive_boot] at hfits
  simp only at hfits ⊢
  rw [receive_boot, receive_boot, typed_append, typed_append, List.nil_append,
    List.nil_append, typed_backspaces, htyped, Vga.run_append, Vga.run_append,
    run_letters, run_deletions]
  simp only
  exact erased_of_fills
    (Vga.print_fills (Vga.run_inRange h (typed [] before)) htext hfits)

end

/-- `Hi`, typed with shift on the first letter. -/
def typeHi : List UInt8 := [0x2A, 0x23, 0xAA, 0x17]

theorem receive_erased_typeHi :
    let start := Screen.boot fun _ => 0
    let shown := ((Console.boot start).receive [0x3A, 0xBA, 0x3A]).screen
    let erased := ((Console.boot start).receive ([0x3A, 0xBA, 0x3A] ++ typeHi ++
      List.replicate 2 keyBackspace)).screen
    erased.position = shown.position ∧
      ∀ i, erased.vga i =
        if shown.position ≤ i ∧ i < shown.position + (2 : ℕ) then
          shown.blank % 65536
        else shown.vga i :=
  @receive_erased (Screen.boot fun _ => 0) [0x3A, 0xBA, 0x3A] typeHi [72, 105]
    (Vga.boot_inRange _) rfl (by simp) (by decide +kernel)

end ClOs.Keyboard
