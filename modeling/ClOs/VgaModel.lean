import ClOs.Paths

/-!
# The text screen

The functions of `vga.c` that move the cursor and write the screen.  `vga[]` is
indexed by an `int`, so its cells are numbered by integers, and every index that
a call uses is recorded.  The two counters are `uint8_t`.  `update_cursor` hands
them to the cursor of the display and is left out.  `printi` and `printh` are in
`VgaNumbers`.
-/

namespace ClOs.Vga

def vgaWidth : ℕ := 80

def vgaHeight : ℕ := 25

/-- `default_vga_color`, white on black. -/
def defaultVgaColor : ℕ := 15 <<< 8 ||| 0 <<< 12

/-- The static data of `vga.c`, the cells of `vga[]` and the indexes used so far,
the last one first. -/
structure Screen where
  vga : ℤ → ℕ
  vgaColomn : ℕ
  vgaRow : ℕ
  currentVgaColor : ℕ
  accesses : List ℤ

/-- The screen when the kernel starts. -/
def Screen.boot (vga : ℤ → ℕ) : Screen where
  vga := vga
  vgaColomn := 0
  vgaRow := 0
  currentVgaColor := defaultVgaColor
  accesses := []

def store (index : ℤ) (value : ℕ) (s : Screen) : Screen :=
  { s with
    vga := Function.update s.vga index (value % 65536)
    accesses := index :: s.accesses }

def copyCell (target source : ℤ) (s : Screen) : Screen :=
  store target (s.vga source) { s with accesses := source :: s.accesses }

def nextColomn (s : Screen) : Screen :=
  { s with vgaColomn := (s.vgaColomn + 1) % 256 }

def previousColomn (s : Screen) : Screen :=
  { s with vgaColomn := (s.vgaColomn + 255) % 256 }

/-- The index of the cell under the cursor. -/
def Screen.position (s : Screen) : ℤ := s.vgaRow * vgaWidth + s.vgaColomn

/-- A `char` as an `int`, of which 16 bits are kept. -/
def charValue (c : UInt8) : ℕ :=
  if c.toNat < 128 then c.toNat else 0xFF00 + c.toNat

def Screen.blank (s : Screen) : ℕ := charValue 32 ||| s.currentVgaColor

def moveCell (y : ℕ) (s : Screen) (x : ℕ) : Screen :=
  copyCell (((y : ℤ) - 1) * vgaWidth + x) ((y : ℤ) * vgaWidth + x) s

def moveRow (s : Screen) (y : ℕ) : Screen :=
  (List.range vgaWidth).foldl (moveCell y) s

def clearCell (y : ℕ) (s : Screen) (x : ℕ) : Screen :=
  store ((y : ℤ) * vgaWidth + x) s.blank s

def scrollUp (s : Screen) : Screen :=
  (List.range vgaHeight).foldl (clearCell (vgaHeight - 1))
    ((List.range vgaHeight).foldl moveRow s)

def newLine (s : Screen) : Screen :=
  if s.vgaRow < vgaHeight - 1 then
    { s with vgaColomn := 0, vgaRow := (s.vgaRow + 1) % 256 }
  else { scrollUp s with vgaColomn := 0 }

def wrapLine (s : Screen) : Screen :=
  if s.vgaColomn = vgaWidth then newLine s else s

def printc (s : Screen) (c : UInt8) : Screen :=
  if c = 10 then newLine s
  else if c = 13 then { s with vgaColomn := 0 }
  else if c = 9 then
    (List.range 4).foldl (fun s _ => nextColomn (wrapLine s)) s
  else
    let wrapped := wrapLine s
    nextColomn (store wrapped.position
      (charValue c ||| wrapped.currentVgaColor) wrapped)

def print (text : CString) (s : Screen) : Screen := text.foldl printc s

def clearRow (s : Screen) (y : ℕ) : Screen :=
  (List.range vgaWidth).foldl (clearCell y) s

def vgaReset (s : Screen) : Screen :=
  (List.range vgaHeight).foldl clearRow
    { s with
      vgaColomn := 0, vgaRow := 0, currentVgaColor := defaultVgaColor }

/-- One round of the loop of `vga_delete` that does not return. -/
def deleteCell (s : Screen) : Screen :=
  let moved :=
    if s.vgaColomn = 0 then
      { s with
        vgaRow := (s.vgaRow + 255) % 256, vgaColomn := vgaWidth - 1 }
    else previousColomn s
  store moved.position moved.blank moved

def vgaDelete : ℕ → Screen → Screen
  | 0, s => s
  | count + 1, s =>
      if s.vgaColomn = 0 ∧ s.vgaRow = 0 then s
      else vgaDelete count (deleteCell s)

/-! ## Runs -/

/-- The calls that a client of the screen makes. -/
inductive Call
  | printc (c : UInt8)
  | print (text : CString)
  | vgaDelete (count : ℕ)
  | vgaReset

def Screen.serve (s : Screen) : Call → Screen
  | .printc c => printc s c
  | .print text => print text s
  | .vgaDelete count => vgaDelete count s
  | .vgaReset => vgaReset s

def Screen.run (s : Screen) (calls : List Call) : Screen :=
  calls.foldl Screen.serve s

end ClOs.Vga
