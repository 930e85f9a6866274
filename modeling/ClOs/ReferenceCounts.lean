import Mathlib.Data.Set.Card

/-!
# Reference counts

Slots that refer to counted objects.  Every object is counted a fixed number
`spare` above the slots that refer to it; with `spare = 0` an object whose count
falls to zero has no slot left.
-/

namespace ClOs

namespace RefCount

variable {Slot Address : Type}

/-- The slots that refer to an object. -/
def refs (slot : Slot → Option Address) (address : Address) : Set Slot :=
  {p | slot p = some address}

/-- Every slot refers to an object, and every object is counted `spare` above
the slots that refer to it. -/
structure Counted (count : Address → Option ℕ) (slot : Slot → Option Address)
    (spare : ℕ) : Prop where
  live : ∀ p address, slot p = some address → ∃ n, count address = some n
  finite : ∀ address, (refs slot address).Finite
  counted : ∀ address n, count address = some n →
    n = spare + (refs slot address).ncard

section

variable {count : Address → Option ℕ} {slot : Slot → Option Address}
  {spare n : ℕ} {p : Slot} {address other : Address}

theorem mem_refs : p ∈ refs slot address ↔ slot p = some address := Iff.rfl

theorem refs_eq_empty (h : ∀ p, slot p ≠ some address) :
    refs slot address = ∅ :=
  Set.eq_empty_of_forall_notMem h

theorem Counted.spare_lt
    (h : Counted count slot spare) (hslot : slot p = some address)
    (hcount : count address = some n) : spare < n := by
  have hpos := (Set.ncard_pos (h.finite address)).2
    ⟨p, mem_refs.2 hslot⟩
  have hold := h.counted address n hcount
  omega

/-- An object that no slot refers to. -/
theorem Counted.add
    [DecidableEq Address] (h : Counted count slot spare) (hfresh : count address = none) :
    Counted (Function.update count address (some spare)) slot spare where
  live q a hq := by
    obtain ⟨n, hn⟩ := h.live q a hq
    have hne : a ≠ address := by
      rintro rfl
      rw [hfresh] at hn
      cases hn
    exact ⟨n, by rw [Function.update_of_ne hne, hn]⟩
  finite := h.finite
  counted a n hn := by
    by_cases ha : a = address
    · subst ha
      have hempty : refs slot a = ∅ := by
        refine refs_eq_empty fun q hq => ?_
        obtain ⟨m, hm⟩ := h.live q a hq
        rw [hfresh] at hm
        cases hm
      rw [Function.update_self, Option.some.injEq] at hn
      rw [hempty, Set.ncard_empty, ← hn, Nat.add_zero]
    · rw [Function.update_of_ne ha] at hn
      exact h.counted a n hn

variable [DecidableEq Slot]

theorem refs_install_self (hfree : slot p = none) (address : Address) :
    refs (Function.update slot p (some address)) address =
        insert p (refs slot address) ∧
      p ∉ refs slot address := by
  constructor
  · ext q
    by_cases hq : q = p
    · subst hq
      simp [refs]
    · simp [refs, hq]
  · simp [refs, hfree]

theorem refs_install_other
    (hfree : slot p = none) (hne : other ≠ address) :
    refs (Function.update slot p (some address)) other =
      refs slot other := by
  ext q
  by_cases hq : q = p
  · subst hq
    simp [refs, hfree, hne.symm]
  · simp [refs, hq]

theorem refs_remove_self :
    refs (Function.update slot p none) address = refs slot address \ {p} := by
  ext q
  by_cases hq : q = p
  · subst hq
    simp [refs]
  · simp [refs, hq]

theorem refs_remove_other
    (hslot : slot p = some address) (hne : other ≠ address) :
    refs (Function.update slot p none) other = refs slot other := by
  ext q
  by_cases hq : q = p
  · subst hq
    simp [refs, hslot, hne.symm]
  · simp [refs, hq]

variable [DecidableEq Address]

/-- One reference more. -/
theorem Counted.install
    (h : Counted count slot spare) (hfree : slot p = none)
    (hcount : count address = some n) :
    Counted (Function.update count address (some (n + 1)))
      (Function.update slot p (some address)) spare where
  live q a hq := by
    by_cases ha : a = address
    · exact ⟨n + 1, by rw [ha, Function.update_self]⟩
    · rw [Function.update_of_ne ha]
      refine h.live q a ?_
      by_cases hqp : q = p
      · subst hqp
        rw [Function.update_self, Option.some.injEq] at hq
        exact absurd hq.symm ha
      · rwa [Function.update_of_ne hqp] at hq
  finite a := by
    by_cases ha : a = address
    · subst ha
      rw [(refs_install_self hfree a).1]
      exact (h.finite a).insert p
    · rw [refs_install_other hfree ha]
      exact h.finite a
  counted a m hm := by
    by_cases ha : a = address
    · subst ha
      obtain ⟨hrefs, hnot⟩ := refs_install_self hfree a
      rw [Function.update_self, Option.some.injEq] at hm
      rw [hrefs, Set.ncard_insert_of_notMem hnot (h.finite a), ← hm,
        h.counted a n hcount, Nat.add_assoc]
    · rw [Function.update_of_ne ha] at hm
      rw [refs_install_other hfree ha]
      exact h.counted a m hm

/-- One reference less. -/
theorem Counted.remove
    (h : Counted count slot spare) (hslot : slot p = some address)
    (hcount : count address = some n) :
    Counted (Function.update count address (some (n - 1)))
      (Function.update slot p none) spare where
  live q a hq := by
    have hqp : q ≠ p := by
      rintro rfl
      rw [Function.update_self] at hq
      cases hq
    rw [Function.update_of_ne hqp] at hq
    by_cases ha : a = address
    · exact ⟨n - 1, by rw [ha, Function.update_self]⟩
    · rw [Function.update_of_ne ha]
      exact h.live q a hq
  finite a := by
    by_cases ha : a = address
    · subst ha
      rw [refs_remove_self]
      exact (h.finite a).sdiff
    · rw [refs_remove_other hslot ha]
      exact h.finite a
  counted a m hm := by
    by_cases ha : a = address
    · subst ha
      rw [Function.update_self, Option.some.injEq] at hm
      have hone := Set.ncard_sdiff_singleton_add_one (mem_refs.2 hslot)
        (h.finite a)
      have hold := h.counted a n hcount
      rw [refs_remove_self]
      omega
    · rw [Function.update_of_ne ha] at hm
      rw [refs_remove_other hslot ha]
      exact h.counted a m hm

end

end RefCount

end ClOs
