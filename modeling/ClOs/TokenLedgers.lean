import Mathlib.Data.Set.Insert
import Mathlib.Tactic

/-!
# Tokens that are handed out

A ledger records which tokens have been taken and returned.  Whoever hands out
unmarked tokens only, and marks each of them until it is returned, never hands
out a token that is held.  Further marks do no harm.
-/

namespace ClOs

/-- An entry of a ledger. -/
inductive Movement (Token : Type)
  | taken (token : Token)
  | returned (token : Token)

variable {Token : Type}

/-- The last entry about a token, the latest first, says that it was taken. -/
def Holds (token : Token) : List (Movement Token) → Prop
  | [] => False
  | .taken other :: earlier => other = token ∨ Holds token earlier
  | .returned other :: earlier => other ≠ token ∧ Holds token earlier

inductive LedgerRun (first : Set Token) :
    List (Movement Token) → Set Token → Prop
  | start : LedgerRun first [] first
  | take {ledger : List (Movement Token)} {marks : Set Token} {token : Token}
      (h : LedgerRun first ledger marks) (hfree : token ∉ marks) :
      LedgerRun first (.taken token :: ledger) (insert token marks)
  | giveBack {ledger : List (Movement Token)} {marks : Set Token}
      {token : Token} (h : LedgerRun first ledger marks) :
      LedgerRun first (.returned token :: ledger) (marks \ {token})
  | grow {ledger : List (Movement Token)} {marks more : Set Token}
      (h : LedgerRun first ledger marks) (hmore : marks ⊆ more) :
      LedgerRun first ledger more

section

variable {first marks : Set Token} {ledger : List (Movement Token)}
  {token : Token}

theorem LedgerRun.holds_mem
    (h : LedgerRun first ledger marks) (hholds : Holds token ledger) :
    token ∈ marks := by
  induction h with
  | start => exact absurd hholds id
  | take _ _ ih =>
      rcases hholds with rfl | hearlier
      · exact Set.mem_insert _ _
      · exact Set.mem_insert_of_mem _ (ih hearlier)
  | giveBack _ ih =>
      obtain ⟨hne, hearlier⟩ := hholds
      exact ⟨ih hearlier, fun hsame => hne hsame.symm⟩
  | grow _ hmore ih => exact hmore (ih hholds)

/-- A token that can be handed out is not held. -/
theorem LedgerRun.fresh
    (h : LedgerRun first ledger marks) (hfree : token ∉ marks) :
    ¬Holds token ledger :=
  fun hholds => hfree (h.holds_mem hholds)

/-- A token that is never returned is held from its first entry on. -/
theorem holds_of_taken
    (htaken : .taken token ∈ ledger) (hkept : .returned token ∉ ledger) :
    Holds token ledger := by
  induction ledger with
  | nil => simp at htaken
  | cons entry earlier ih =>
      simp only [List.mem_cons, not_or] at htaken hkept
      cases entry with
      | taken other =>
          rcases htaken with hsame | hearlier
          · exact .inl (by injection hsame with hsame; exact hsame.symm)
          · exact .inr (ih hearlier hkept.2)
      | returned other =>
          rcases htaken with hsame | hearlier
          · cases hsame
          · exact ⟨fun hsame => hkept.1 (by rw [hsame]),
              ih hearlier hkept.2⟩

end

end ClOs
