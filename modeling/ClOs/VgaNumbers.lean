import ClOs.Disk
import ClOs.VgaModel
import Mathlib.Data.Nat.Digits.Lemmas

/-!
# Printing numbers

`printi` and `printh` take a number apart from its last digit on and keep the
digits in an array of twelve characters.  One of them turns the array around and
prints it as a string, the other one prints it from its end.  No 32-bit number
leaves the array.
-/

namespace ClOs.Vga

/-! ## The array -/

def charAt (buffer : Buffer) (i : ℕ) : Outcome UInt8 := do
  buffer.check i 1
  return buffer.bytes i

def setChar (buffer : Buffer) (i : ℕ) (c : UInt8) : Outcome Buffer :=
  buffer.load i (fun _ => c) 1

def digitBuffer (garbage : ByteStore) : Buffer where
  size := 12
  bytes := garbage

/-- More rounds than a 32-bit number has digits. -/
def digitFuel : ℕ := 33

/-- The loop that takes the last digit of a number while there is one. -/
def storeDigits (digit : ℕ → UInt8) (rest : ℕ → ℕ) :
    ℕ → ℕ → ℕ → Buffer → Outcome (ℕ × Buffer)
  | 0, _, _, _ => .error .endless
  | fuel + 1, num, i, buffer =>
      if 0 < num then do
        let stored ← setChar buffer i (digit num)
        storeDigits digit rest fuel (rest num) (i + 1) stored
      else return (i, buffer)

/-- One round of the loop of `printi` that turns the array around. -/
def swapChars (count : ℕ) (buffer : Buffer) (j : ℕ) : Outcome Buffer := do
  let temp ← charAt buffer j
  let other ← charAt buffer (count - 1 - j)
  let moved ← setChar buffer j other
  setChar moved (count - 1 - j) temp

/-- The characters in front of the first `'\0'`. -/
def stringAt (buffer : Buffer) : ℕ → ℕ → Outcome CString
  | 0, _ => .error .endless
  | fuel + 1, i => do
      let c ← charAt buffer i
      if c = 0 then return []
      else return c :: (← stringAt buffer fuel (i + 1))

/-- The last loop of `printh`. -/
def printBack (buffer : Buffer) : ℕ → Screen → Outcome Screen
  | 0, s => return s
  | i + 1, s => do
      let c ← charAt buffer i
      printBack buffer i (printc s c)

/-! ## The functions -/

def decimalDigit (num : ℕ) : UInt8 := UInt8.ofNat (48 + num % 10)

def hexChars : List UInt8 :=
  [48, 49, 50, 51, 52, 53, 54, 55, 56, 57, 97, 98, 99, 100, 101, 102]

def hexDigit (num : ℕ) : UInt8 := hexChars.getD (num &&& 0xF) 0

/-- `printi`, with what the array holds at first. -/
def printi (garbage : ByteStore) (num : ℕ) (s : Screen) : Outcome Screen :=
  if num = 0 then return print [48] s
  else do
    let (i, stored) ← storeDigits decimalDigit (· / 10) digitFuel num 0
      (digitBuffer garbage)
    let ended ← setChar stored i 0
    let reversed ← (List.range (i / 2)).foldlM (swapChars i) ended
    return print (← stringAt reversed 13 0) s

def printh (garbage : ByteStore) (num : ℕ) (s : Screen) : Outcome Screen :=
  if num = 0 then return print [48, 120, 48] s
  else do
    let (i, stored) ← storeDigits hexDigit (· >>> 4) digitFuel num 0
      (digitBuffer garbage)
    printBack stored i (print [48, 120] s)

/-! ## Texts in an array -/

/-- A text at the start of an array. -/
structure Holds (buffer : Buffer) (text : CString) : Prop where
  fits : text.length ≤ buffer.size
  bytes : ∀ (j : ℕ) (h : j < text.length), buffer.bytes j = text[j]

section

variable {buffer : Buffer} {text : CString} {c : UInt8} {j num : ℕ} {s : Screen}

theorem charAt_eq (h : j < buffer.size) :
    charAt buffer j = .ok (buffer.bytes j) := by
  unfold charAt
  rw [Buffer.check_of_le h]
  rfl

theorem Holds.charAt (h : Holds buffer text) (hj : j < text.length) :
    charAt buffer j = .ok text[j] := by
  rw [charAt_eq (hj.trans_le h.fits), h.bytes j hj]

theorem setChar_eq (h : j < buffer.size) (c : UInt8) :
    setChar buffer j c =
      .ok { buffer with bytes := buffer.bytes.blit j (fun _ => c) 1 } :=
  Buffer.load_eq_ok.2 ⟨h, rfl⟩

/-- A character put behind a text. -/
theorem Holds.push
    (h : Holds buffer text) (hroom : text.length < buffer.size) (c : UInt8) :
    ∃ next, setChar buffer text.length c = .ok next ∧
      next.size = buffer.size ∧ Holds next (text ++ [c]) := by
  refine ⟨_, setChar_eq hroom c, rfl, ?_, fun j hj => ?_⟩
  · rw [List.length_append, List.length_singleton]
    exact hroom
  · rw [List.length_append, List.length_singleton] at hj
    rcases Nat.lt_or_ge j text.length with hlt | hge
    · rw [List.getElem_append_left hlt]
      simp only
      rw [ByteStore.blit_outside _ _ (.inl hlt)]
      exact h.bytes j hlt
    · obtain rfl : j = text.length := by omega
      rw [List.getElem_concat_length rfl]
      simp only
      rw [ByteStore.blit_inside _ _ (le_refl _) (by omega)]

theorem Holds.front {rest : CString} (h : Holds buffer (text ++ rest)) :
    Holds buffer text := by
  refine ⟨?_, fun j hj => ?_⟩
  · have hfits := h.fits
    rw [List.length_append] at hfits
    omega
  · have hlength : j < (text ++ rest).length := by
      rw [List.length_append]
      omega
    rw [h.bytes j hlength, List.getElem_append_left hj]

/-! ## Digits -/

/-- Taking the digits of a number apart. -/
theorem storeDigits_eq
    {base : ℕ} {digit : ℕ → UInt8} {rest : ℕ → ℕ} (hbase : 1 < base)
    (hrest : ∀ n, rest n = n / base) (hdigit : ∀ n, digit n = digit (n % base))
    {fuel num : ℕ} (h : Holds buffer text)
    (hroom : text.length + (Nat.digits base num).length ≤ buffer.size)
    (hfuel : (Nat.digits base num).length < fuel) :
    ∃ next, storeDigits digit rest fuel num text.length buffer =
        .ok (text.length + (Nat.digits base num).length, next) ∧
      next.size = buffer.size ∧
      Holds next (text ++ (Nat.digits base num).map digit) := by
  induction fuel generalizing num text buffer with
  | zero => exact absurd hfuel (Nat.not_lt_zero _)
  | succ fuel ih =>
      rw [storeDigits]
      split_ifs with hpositive
      · have hsplit := Nat.digits_def' hbase hpositive
        rw [hsplit, List.length_cons] at hroom hfuel
        obtain ⟨stored, hset, hsize, hstored⟩ :=
          h.push (by omega) (digit num)
        obtain ⟨next, hstore, hnext, hholds⟩ :=
          @ih stored (text ++ [digit num]) (num / base) hstored
            (by rw [List.length_append, List.length_singleton]; omega) (by omega)
        rw [List.length_append, List.length_singleton] at hstore
        refine ⟨next, ?_, hnext.trans hsize, ?_⟩
        · simp only [hset, bind, Except.bind, hrest, hstore]
          rw [hsplit, List.length_cons, Nat.add_assoc, Nat.add_comm 1]
        · rw [hsplit, List.map_cons, ← hdigit]
          rwa [List.append_assoc] at hholds
      · obtain rfl : num = 0 := by omega
        exact ⟨buffer, by simp [pure, Except.pure], rfl, by simpa using h⟩

theorem toDigits_eq
    {base num : ℕ} (hbase : 1 < base) (hpositive : 0 < num) :
    Nat.toDigits base num = ((Nat.digits base num).map Nat.digitChar).reverse := by
  induction num using Nat.strong_induction_on with
  | _ num ih =>
    rw [Nat.digits_def' hbase hpositive, List.map_cons, List.reverse_cons]
    rcases Nat.lt_or_ge num base with hlt | hge
    · rw [Nat.toDigits_of_lt_base hlt, Nat.div_eq_of_lt hlt,
        Nat.mod_eq_of_lt hlt]
      simp
    · rw [Nat.toDigits_of_base_le hbase hge,
        ih _ (Nat.div_lt_self hpositive hbase)
          (Nat.div_pos hge (Nat.zero_lt_of_lt hbase))]

/-! ## Turning the array around -/

theorem swapChars_eq {count : ℕ} (hcount : count ≤ buffer.size)
    (hj : 2 * (j + 1) ≤ count) :
    ∃ next, swapChars count buffer j = .ok next ∧ next.size = buffer.size ∧
      ∀ p, next.bytes p =
        if p = j ∨ p = count - 1 - j then buffer.bytes (count - 1 - p)
        else buffer.bytes p := by
  have hother : count - 1 - j < buffer.size := by omega
  unfold swapChars
  rw [charAt_eq (by omega), charAt_eq hother]
  simp only [bind, Except.bind]
  rw [setChar_eq (by omega)]
  have hmoved := @setChar_eq
    ⟨buffer.size, buffer.bytes.blit j (fun _ => buffer.bytes (count - 1 - j)) 1⟩
    (count - 1 - j) hother (buffer.bytes j)
  refine ⟨_, hmoved, rfl, fun p => ?_⟩
  simp only
  by_cases hlast : p = count - 1 - j
  · subst hlast
    rw [ByteStore.blit_inside _ _ (le_refl _) (by omega), if_pos (.inr rfl)]
    congr 1
    omega
  rw [ByteStore.blit_outside _ _ (by omega)]
  by_cases hfirst : p = j
  · subst hfirst
    rw [ByteStore.blit_inside _ _ (le_refl _) (by omega), if_pos (.inl rfl)]
  · rw [ByteStore.blit_outside _ _ (by omega),
      if_neg (not_or.2 ⟨hfirst, hlast⟩)]

theorem swapAll_eq {count : ℕ} (hcount : count ≤ buffer.size) {m : ℕ}
    (hm : 2 * m ≤ count) :
    ∃ next, (List.range m).foldlM (swapChars count) buffer = .ok next ∧
      next.size = buffer.size ∧
      ∀ p, next.bytes p =
        if p < m ∨ (count - m ≤ p ∧ p < count) then buffer.bytes (count - 1 - p)
        else buffer.bytes p := by
  induction m with
  | zero =>
      refine ⟨buffer, rfl, rfl, fun p => ?_⟩
      rw [if_neg (by omega)]
  | succ m ih =>
      obtain ⟨mid, hmid, hsize, hbytes⟩ := ih (by omega)
      obtain ⟨next, hnext, hnextsize, hswap⟩ :=
        @swapChars_eq mid m count (by omega) hm
      refine ⟨next, ?_, hnextsize.trans hsize, fun p => ?_⟩
      · rw [List.range_succ, List.foldlM_append, hmid]
        simp [hnext, bind, Except.bind, pure, Except.pure]
      · rw [hswap]
        by_cases hpair : p = m ∨ p = count - 1 - m
        · rw [if_pos hpair, hbytes, if_neg (by omega), if_pos (by omega)]
        · rw [if_neg hpair, hbytes]
          refine if_congr ?_ rfl rfl
          omega

/-- The text in an array, turned around. -/
theorem Holds.reverse {rest : CString} (h : Holds buffer (text ++ rest)) :
    ∃ next, (List.range (text.length / 2)).foldlM (swapChars text.length)
        buffer = .ok next ∧ Holds next (text.reverse ++ rest) := by
  have hfits := h.fits
  rw [List.length_append] at hfits
  obtain ⟨next, hnext, hsize, hbytes⟩ :=
    @swapAll_eq buffer text.length (by omega) (text.length / 2) (by omega)
  refine ⟨next, hnext, ?_, fun j hj => ?_⟩
  · rw [hsize, List.length_append, List.length_reverse]
    exact hfits
  · rw [List.length_append, List.length_reverse] at hj
    have hold : ∀ i (hi : i < text.length), buffer.bytes i = text[i] := by
      intro i hi
      rw [h.bytes i (by rw [List.length_append]; omega),
        List.getElem_append_left hi]
    rw [hbytes]
    by_cases hin : j < text.length
    · rw [List.getElem_append_left (by rwa [List.length_reverse]),
        List.getElem_reverse]
      split_ifs with hmoved
      · exact hold _ (by omega)
      · rw [hold j hin]
        congr 1
        omega
    · rw [if_neg (by omega), h.bytes j (by rw [List.length_append]; omega),
        List.getElem_append_right (by omega),
        List.getElem_append_right (by rw [List.length_reverse]; omega)]
      simp only [List.length_reverse]

/-! ## Printing the array -/

theorem Holds.stringAt {rest : CString}
    (h : Holds buffer (rest ++ (text ++ [0]))) (htext : 0 ∉ text)
    {fuel : ℕ} (hfuel : text.length < fuel) :
    stringAt buffer fuel rest.length = .ok text := by
  induction text generalizing rest fuel with
  | nil =>
      obtain ⟨fuel, rfl⟩ := Nat.exists_eq_succ_of_ne_zero hfuel.ne'
      rw [Vga.stringAt, h.charAt (by simp)]
      simp [bind, Except.bind, pure, Except.pure]
  | cons c text ih =>
      obtain ⟨fuel, rfl⟩ := Nat.exists_eq_succ_of_ne_zero
        (Nat.zero_lt_of_lt hfuel).ne'
      obtain ⟨hc, htail⟩ := not_or.1 (fun hmem => htext (List.mem_cons.2 hmem))
      have hrest := @ih (rest ++ [c]) (by simpa using h) htail fuel
        (Nat.lt_of_succ_lt_succ hfuel)
      rw [List.length_append, List.length_singleton] at hrest
      have hinside : rest.length < (rest ++ (c :: text ++ [0])).length := by simp
      have hchar : (rest ++ (c :: text ++ [0]))[rest.length] = c := by simp
      rw [Vga.stringAt, h.charAt hinside, hchar]
      simp only [bind, Except.bind, hrest]
      rw [if_neg fun hzero => hc hzero.symm]
      rfl

theorem Holds.printBack (h : Holds buffer text) (s : Screen) :
    printBack buffer text.length s = .ok (print text.reverse s) := by
  induction text using List.reverseRecOn generalizing s with
  | nil => rfl
  | append_singleton text c ih =>
      have hchar := h.charAt (j := text.length) (by simp)
      rw [List.getElem_concat_length rfl] at hchar
      rw [List.length_append, List.length_singleton, Vga.printBack, hchar]
      simp only [bind, Except.bind, ih h.front, List.reverse_append,
        List.reverse_singleton, List.singleton_append]
      rfl

/-! ## Numbers -/

theorem storeDigits_number
    {base size : ℕ} {digit : ℕ → UInt8} {rest : ℕ → ℕ} (hbase : 1 < base)
    (hrest : ∀ n, rest n = n / base)
    (hdigit : ∀ n, digit n = UInt8.ofNat (Nat.digitChar (n % base)).toNat)
    (hsize : (Nat.digits base num).length ≤ size)
    (hfuel : (Nat.digits base num).length < digitFuel)
    (hpositive : 0 < num) (garbage : ByteStore) :
    ∃ next, storeDigits digit rest digitFuel num 0 ⟨size, garbage⟩ =
        .ok ((Nat.toDigits base num).length, next) ∧ next.size = size ∧
      Holds next ((Nat.toDigits base num).map
        (fun c => UInt8.ofNat c.toNat)).reverse := by
  have hempty : Holds ⟨size, garbage⟩ [] :=
    ⟨Nat.zero_le _, fun j hj => absurd hj (Nat.not_lt_zero j)⟩
  have hlow : ∀ n, digit n = digit (n % base) := by
    intro n
    rw [hdigit, hdigit (n % base), Nat.mod_mod]
  obtain ⟨next, hstore, hnext, hholds⟩ := storeDigits_eq hbase hrest hlow hempty
    (by rwa [List.length_nil, Nat.zero_add]) hfuel
  have hdigits : (Nat.digits base num).map digit =
      ((Nat.toDigits base num).map (fun c => UInt8.ofNat c.toNat)).reverse := by
    rw [toDigits_eq hbase hpositive, ← List.map_reverse, List.reverse_reverse,
      List.map_map]
    refine List.map_congr_left fun d hd => ?_
    rw [hdigit, Nat.mod_eq_of_lt (Nat.digits_lt_base hbase hd)]
    rfl
  refine ⟨next, ?_, hnext, ?_⟩
  · rw [List.length_nil, Nat.zero_add] at hstore
    rw [hstore, toDigits_eq hbase hpositive, List.length_reverse,
      List.length_map]
  · rw [← hdigits]
    exact hholds

theorem decimalDigit_eq (n : ℕ) :
    decimalDigit n = UInt8.ofNat (Nat.digitChar (n % 10)).toNat := by
  have hall : ∀ d < 10, UInt8.ofNat (48 + d) =
      UInt8.ofNat (Nat.digitChar d).toNat := by
    decide
  exact hall _ (Nat.mod_lt n (by decide))

theorem hexDigit_eq (n : ℕ) :
    hexDigit n = UInt8.ofNat (Nat.digitChar (n % 16)).toNat := by
  have hall : ∀ d < 16, hexChars.getD d 0 =
      UInt8.ofNat (Nat.digitChar d).toNat := by
    decide
  have hlow : n &&& 0xF = n % 16 := Nat.and_two_pow_sub_one_eq_mod n 4
  unfold hexDigit
  rw [hlow]
  exact hall _ (Nat.mod_lt n (by decide))

/-- No digit is the end of a string. -/
theorem decimalBytes_ne_zero (num : ℕ) : 0 ∉ decimalBytes num := by
  intro hmem
  obtain ⟨c, hc, hzero⟩ := List.mem_map.1 hmem
  have hdigit := Nat.isDigit_of_mem_toDigits (by decide) (by decide) hc
  obtain ⟨hlow, hhigh⟩ : 48 ≤ c.toNat ∧ c.toNat ≤ 57 :=
    Char.isDigit_iff_toNat.1 hdigit
  have hvalue := congrArg UInt8.toNat hzero
  rw [UInt8.toNat_ofNat'] at hvalue
  simp only [UInt8.toNat_ofNat] at hvalue
  omega

section

variable (garbage : ByteStore) (hnum : num < 4294967296) (s : Screen)

include hnum

/-- `printi` prints the decimal digits of every 32-bit number. -/
theorem printi_eq :
    printi garbage num s = .ok (print (decimalBytes num) s) := by
  unfold printi
  split_ifs with hzero
  · subst hzero
    rfl
  have hlength : (Nat.digits 10 num).length ≤ 10 :=
    (Nat.digits_length_le_iff (by decide) num).2 (by omega)
  obtain ⟨stored, hstore, hsize, hholds⟩ := storeDigits_number (by decide)
    (fun _ => rfl) decimalDigit_eq (by omega : _ ≤ 12)
    (by unfold digitFuel; omega) (Nat.pos_of_ne_zero hzero) garbage
  have hcount : (Nat.toDigits 10 num).length = (decimalBytes num).length := by
    unfold decimalBytes
    rw [List.length_map]
  have hshort : (decimalBytes num).length ≤ 10 := by
    rw [← hcount, toDigits_eq (by decide) (Nat.pos_of_ne_zero hzero),
      List.length_reverse, List.length_map]
    exact hlength
  have htext : Holds stored (decimalBytes num).reverse := hholds
  have hroom : (decimalBytes num).reverse.length < stored.size := by
    rw [List.length_reverse, hsize]
    omega
  obtain ⟨ended, hset, -, hended⟩ := htext.push hroom 0
  obtain ⟨reversed, hswap, hreversed⟩ := hended.reverse
  rw [List.length_reverse] at hset hswap
  rw [List.reverse_reverse] at hreversed
  have hstring := @Holds.stringAt reversed (decimalBytes num) []
    hreversed (decimalBytes_ne_zero num) 13 (by omega)
  rw [List.length_nil] at hstring
  unfold digitBuffer
  simp only [hstore, hcount, hset, hswap, hstring, bind, Except.bind]
  rfl

/-- `printh` prints `0x` and the hexadecimal digits of every 32-bit number. -/
theorem printh_eq :
    printh garbage num s = .ok (print (asciiBytes "0x" ++
      (Nat.toDigits 16 num).map (fun c => UInt8.ofNat c.toNat)) s) := by
  unfold printh
  split_ifs with hzero
  · subst hzero
    rfl
  have hlength : (Nat.digits 16 num).length ≤ 8 :=
    (Nat.digits_length_le_iff (by decide) num).2 (by omega)
  have hrest : ∀ n, n >>> 4 = n / 16 := fun n => Nat.shiftRight_eq_div_pow n 4
  obtain ⟨stored, hstore, -, hholds⟩ := storeDigits_number (by decide)
    hrest hexDigit_eq (by omega : _ ≤ 12)
    (by unfold digitFuel; omega) (Nat.pos_of_ne_zero hzero) garbage
  have hback := hholds.printBack (print [48, 120] s)
  rw [List.length_reverse, List.length_map, List.reverse_reverse] at hback
  unfold digitBuffer
  simp only [hstore, hback, bind, Except.bind]
  unfold print
  rw [List.foldl_append]
  rfl

end

end

theorem printi_eq_largest :
    printi (fun _ => 0) 4294967295 (Screen.boot fun _ => 0) =
      .ok (print (decimalBytes 4294967295) (Screen.boot fun _ => 0)) :=
  printi_eq _ (by decide) _

theorem printh_eq_largest :
    printh (fun _ => 0) 4294967295 (Screen.boot fun _ => 0) =
      .ok (print (asciiBytes "0x" ++ (Nat.toDigits 16 4294967295).map
        (fun c => UInt8.ofNat c.toNat)) (Screen.boot fun _ => 0)) :=
  printh_eq _ (by decide) _

end ClOs.Vga
