import Mathlib.Logic.Relation
import Mathlib.Data.Finset.Card
import Mathlib.Tactic

/-!
# Walks that come back

A walk follows a relation from node to node.  When only finitely many nodes lead
on, a walk that is longer than their number passes a node twice, and walks of
every length exist exactly when one of them reaches a node that leads back to
itself.
-/

namespace ClOs

variable {Node : Type}

/-- A walk of `count` steps starts at a node. -/
def WalksOn (leads : Node → Node → Prop) : ℕ → Node → Prop
  | 0, _ => True
  | count + 1, node => ∃ next, leads node next ∧ WalksOn leads count next

/-- A walk from `first` reaches a node that leads back to itself. -/
def ComesBack (leads : Node → Node → Prop) (first : Node) : Prop :=
  ∃ node, Relation.ReflTransGen leads first node ∧
    Relation.TransGen leads node node

section

variable {leads : Node → Node → Prop} {first next : Node}

theorem ComesBack.of_leads
    (hstep : leads first next) (h : ComesBack leads next) :
    ComesBack leads first := by
  obtain ⟨node, hreach, hcycle⟩ := h
  exact ⟨node, hreach.head hstep, hcycle⟩

theorem ComesBack.step
    (h : ComesBack leads first) :
    ∃ next, leads first next ∧ ComesBack leads next := by
  obtain ⟨node, hreach, hcycle⟩ := h
  rcases hreach.cases_head with rfl | ⟨next, hstep, hrest⟩
  · obtain ⟨next, hstep, hrest⟩ := Relation.TransGen.head'_iff.1 hcycle
    exact ⟨next, hstep, first, hrest, hcycle⟩
  · exact ⟨next, hstep, node, hrest, hcycle⟩

theorem ComesBack.walksOn
    (h : ComesBack leads first) (count : ℕ) : WalksOn leads count first := by
  induction count generalizing first with
  | zero => trivial
  | succ count ih =>
      obtain ⟨next, hstep, hrest⟩ := h.step
      exact ⟨next, hstep, ih hrest⟩

/-- A walk longer than the number of nodes that lead on has come back: a first
node that the rest of the walk avoids is one node less for the rest. -/
theorem WalksOn.comesBack [DecidableEq Node]
    {sources : Finset Node} {count : ℕ}
    (h : WalksOn leads count first)
    (hsources : ∀ node next, Relation.ReflTransGen leads first node →
      leads node next → node ∈ sources)
    (hcount : sources.card < count) : ComesBack leads first := by
  induction count generalizing first sources with
  | zero => exact absurd hcount (Nat.not_lt_zero _)
  | succ count ih =>
      obtain ⟨next, hstep, hrest⟩ := h
      have hfirst := hsources first next .refl hstep
      by_cases hback : Relation.ReflTransGen leads next first
      · exact ⟨first, .refl, Relation.TransGen.head' hstep hback⟩
      · have hfewer : (sources.erase first).card < count := by
          have hpos := Finset.card_pos.2 ⟨first, hfirst⟩
          rw [Finset.card_erase_of_mem hfirst]
          omega
        refine ComesBack.of_leads hstep (ih hrest ?_ hfewer)
        intro node after hreach hleads
        refine Finset.mem_erase.2 ⟨?_, hsources node after (hreach.head hstep) hleads⟩
        rintro rfl
        exact hback hreach

theorem walksOn_iff_comesBack [DecidableEq Node]
    {sources : Finset Node} {count : ℕ}
    (hsources : ∀ node next, leads node next → node ∈ sources)
    (hcount : sources.card < count) :
    WalksOn leads count first ↔ ComesBack leads first :=
  ⟨fun h => h.comesBack (fun node next _ => hsources node next) hcount,
    fun h => h.walksOn count⟩

end

end ClOs
