import ClOs.ByteStore

/-!
# Stacks of words

A stack of 32-bit words grows downwards in a byte store.  What has been pushed is
found above the top of the stack, and a push changes nothing else.
-/

namespace ClOs

namespace ByteStore

/-- The 32-bit word at an address. -/
def word (store : ByteStore) (address : ℕ) : UInt32 :=
  UInt32.ofNat (store.le32 address)

def putWord (store : ByteStore) (address : ℕ) (value : UInt32) : ByteStore :=
  store.put32 address value.toNat

def WordsAt (store : ByteStore) : ℕ → List UInt32 → Prop
  | _, [] => True
  | address, value :: rest =>
      store.word address = value ∧ store.WordsAt (address + 4) rest

/-- The stack pointer after some pushes. -/
@[irreducible] def pushed (esp : UInt32) : ℕ → UInt32
  | 0 => esp
  | count + 1 => pushed (esp - 4) count

/-- Words that are pushed one after another. -/
@[irreducible] def pushWords (store : ByteStore) (esp : UInt32) : List UInt32 → ByteStore
  | [] => store
  | value :: rest => (store.putWord (esp - 4).toNat value).pushWords (esp - 4) rest

section

variable {store other : ByteStore} {address low high count : ℕ}
  {esp value : UInt32} {values above : List UInt32}

@[simp] theorem word_putWord_same (store : ByteStore) (address : ℕ)
    (value : UInt32) : (store.putWord address value).word address = value := by
  unfold word putWord
  rw [le32_put32_same, u32_of_lt value.toNat_lt]
  exact UInt32.ofNat_toNat

theorem AgreeOn.word_eq
    (h : store.AgreeOn other low high) (hlow : low ≤ address)
    (hhigh : address + 4 ≤ high) : store.word address = other.word address := by
  unfold word
  rw [h.le32_eq address hlow hhigh]

theorem AgreeOn.wordsAt
    (h : store.AgreeOn other low high) (hlow : low ≤ address)
    (hhigh : address + 4 * values.length ≤ high)
    (hwords : other.WordsAt address values) : store.WordsAt address values := by
  induction values generalizing address with
  | nil => trivial
  | cons value rest ih =>
      rw [List.length_cons] at hhigh
      obtain ⟨hfirst, hrest⟩ := hwords
      exact ⟨(h.word_eq hlow (by omega)).trans hfirst,
        ih (by omega) (by omega) hrest⟩

theorem putWord_agreeOn
    (store : ByteStore) (value : UInt32)
    (h : high ≤ address ∨ address + 4 ≤ low) :
    (store.putWord address value).AgreeOn store low high :=
  blit_agreeOn store _ h

theorem sub_four_toNat (hroom : 4 ≤ esp.toNat) : (esp - 4).toNat = esp.toNat - 4 :=
  UInt32.toNat_sub_of_le _ _ hroom

theorem pushed_toNat (hroom : 4 * count ≤ esp.toNat) :
    (pushed esp count).toNat = esp.toNat - 4 * count := by
  induction count generalizing esp with
  | zero =>
      unfold pushed
      rfl
  | succ count ih =>
      have hfirst := sub_four_toNat (show 4 ≤ esp.toNat by omega)
      unfold pushed
      rw [ih (by omega), hfirst]
      omega

theorem pushWords_agreeOn
    (store : ByteStore) (hroom : 4 * values.length ≤ esp.toNat)
    (h : high + 4 * values.length ≤ esp.toNat ∨ esp.toNat ≤ low) :
    (store.pushWords esp values).AgreeOn store low high := by
  induction values generalizing store esp with
  | nil =>
      unfold pushWords
      exact AgreeOn.refl _ _ _
  | cons value rest ih =>
      rw [List.length_cons] at hroom h
      have hfirst := sub_four_toNat (show 4 ≤ esp.toNat by omega)
      have hrest := @ih (esp - 4) (store.putWord (esp - 4).toNat value) (by omega)
        (by omega)
      unfold pushWords
      exact hrest.trans (putWord_agreeOn store value (by omega))

theorem WordsAt.push
    (h : store.WordsAt esp.toNat above)
    (hroom : 4 * values.length ≤ esp.toNat) :
    (store.pushWords esp values).WordsAt (esp.toNat - 4 * values.length)
      (values.reverse ++ above) := by
  induction values generalizing store esp above with
  | nil =>
      unfold pushWords
      exact h
  | cons value rest ih =>
      rw [List.length_cons] at hroom
      have hfirst := sub_four_toNat (show 4 ≤ esp.toNat by omega)
      have hframe : (store.putWord (esp - 4).toNat value).AgreeOn store esp.toNat
          (esp.toNat + 4 * above.length) :=
        putWord_agreeOn store value (.inr (by omega))
      have habove : (store.putWord (esp - 4).toNat value).WordsAt
          (esp - 4).toNat (value :: above) := by
        refine ⟨word_putWord_same _ _ _, ?_⟩
        have hnext : (esp - 4).toNat + 4 = esp.toNat := by omega
        rw [hnext]
        exact hframe.wordsAt le_rfl le_rfl h
      have hrest := ih habove (by omega)
      have hbase : (esp - 4).toNat - 4 * rest.length =
          esp.toNat - 4 * (value :: rest).length := by
        rw [List.length_cons]
        omega
      rw [List.reverse_cons, List.append_assoc, List.cons_append, List.nil_append,
        ← hbase]
      unfold pushWords
      exact hrest

end

end ByteStore

end ClOs
