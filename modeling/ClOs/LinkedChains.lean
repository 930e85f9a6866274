import Mathlib.Tactic

/-!
# Chains of links

A link leads from each node to the next one.  The chain of a node consists of the
nodes that come up on the way from it, and it ends at the first node at which the
way does not go on.  A chain is determined by its start and visits no node twice,
and a change of the links elsewhere leaves it alone.
-/

namespace ClOs

def ChainFrom {Node : Type} (link : Node → Node) (goes : Node → Prop) :
    Node → List Node → Prop
  | first, [] => ¬goes first
  | first, node :: rest =>
      node = first ∧ goes first ∧ ChainFrom link goes (link first) rest

instance ChainFrom.decidable {Node : Type} (link : Node → Node)
    (goes : Node → Prop) [DecidableEq Node] [DecidablePred goes] :
    ∀ first nodes, Decidable (ChainFrom link goes first nodes)
  | first, [] => inferInstanceAs (Decidable (¬goes first))
  | first, node :: rest =>
      have := ChainFrom.decidable link goes (link first) rest
      inferInstanceAs (Decidable (node = first ∧ goes first ∧ _))

/-- The chain of a node, cut off after `fuel` nodes. -/
def chainOf {Node : Type} (link : Node → Node) (goes : Node → Prop)
    [DecidablePred goes] : ℕ → Node → List Node
  | 0, _ => []
  | fuel + 1, first =>
      if goes first then first :: chainOf link goes fuel (link first) else []

/-- The nodes on the way from a node to another one, without the last. -/
def LinkedTo {Node : Type} (link : Node → Node) :
    Node → List Node → Node → Prop
  | first, [], last => first = last
  | first, node :: rest, last => node = first ∧ LinkedTo link (link first) rest last

namespace ChainFrom

variable {Node : Type} {link link' : Node → Node} {goes : Node → Prop}
  {first node last : Node} {nodes other front rest : List Node}

theorem first_mem
    (h : ChainFrom link goes first nodes) (hgoes : goes first) :
    first ∈ nodes := by
  cases nodes with
  | nil => exact absurd hgoes h
  | cons head rest =>
      obtain ⟨rfl, -, -⟩ := h
      exact List.mem_cons_self ..

theorem ne_nil
    (h : ChainFrom link goes first nodes) (hgoes : goes first) : nodes ≠ [] :=
  List.ne_nil_of_mem (h.first_mem hgoes)

theorem unique
    (h : ChainFrom link goes first nodes) (h' : ChainFrom link goes first other) :
    nodes = other := by
  induction nodes generalizing first other with
  | nil =>
      cases other with
      | nil => rfl
      | cons head rest => exact absurd h'.2.1 h
  | cons head rest ih =>
      obtain ⟨rfl, hgoes, hrest⟩ := h
      cases other with
      | nil => exact absurd hgoes h'
      | cons head' rest' =>
          obtain ⟨rfl, -, hrest'⟩ := h'
          rw [ih hrest hrest']

/-- A chain that is not cut off. -/
theorem chainOf_eq
    [DecidablePred goes] (h : ChainFrom link goes first nodes) {fuel : ℕ}
    (hfuel : nodes.length ≤ fuel) : chainOf link goes fuel first = nodes := by
  induction nodes generalizing first fuel with
  | nil =>
      cases fuel with
      | zero => rfl
      | succ fuel => exact if_neg h
  | cons head rest ih =>
      obtain ⟨rfl, hgoes, hrest⟩ := h
      cases fuel with
      | zero => exact absurd hfuel (Nat.not_succ_le_zero _)
      | succ fuel =>
          rw [chainOf, if_pos hgoes, ih hrest (Nat.le_of_succ_le_succ hfuel)]

theorem suffix
    (h : ChainFrom link goes first (front ++ node :: rest)) :
    ChainFrom link goes node (node :: rest) := by
  induction front generalizing first with
  | nil =>
      obtain ⟨rfl, hgoes, hrest⟩ := h
      exact ⟨rfl, hgoes, hrest⟩
  | cons head front ih => exact ih h.2.2

theorem link_mem
    (h : ChainFrom link goes first nodes) (hmem : node ∈ nodes) :
    link node ∈ nodes ∨ ¬goes (link node) := by
  obtain ⟨front, rest, hsplit⟩ := List.append_of_mem hmem
  rw [hsplit] at h
  have hnext := h.suffix.2.2
  cases rest with
  | nil => exact .inr hnext
  | cons next others =>
      rw [← hnext.1, hsplit]
      exact .inl (by simp)

/-- A chain visits no node twice. -/
theorem nodup
    (h : ChainFrom link goes first nodes) : nodes.Nodup := by
  induction nodes generalizing first with
  | nil => exact List.nodup_nil
  | cons head rest ih =>
      refine List.nodup_cons.2 ⟨fun hmem => ?_, ih h.2.2⟩
      obtain ⟨front, tail, hsplit⟩ := List.append_of_mem hmem
      obtain rfl := h.1
      have hwhole := h
      rw [hsplit, ← List.cons_append] at h
      have hsame := hwhole.unique h.suffix
      have hlength := congrArg List.length hsame
      rw [hsplit] at hlength
      simp only [List.length_cons, List.length_append] at hlength
      omega

theorem congr
    (h : ChainFrom link goes first nodes)
    (hsame : ∀ node ∈ nodes, link' node = link node) :
    ChainFrom link' goes first nodes := by
  induction nodes generalizing first with
  | nil => exact h
  | cons head rest ih =>
      obtain ⟨rfl, hgoes, hrest⟩ := h
      refine ⟨rfl, hgoes, ?_⟩
      rw [hsame head (List.mem_cons_self ..)]
      exact ih hrest fun node hmem => hsame node (List.mem_cons_of_mem _ hmem)

/-- Another chain is hung on at the end. -/
theorem extend
    (h : ChainFrom link goes first (front ++ [last]))
    (hsame : ∀ node ∈ front, link' node = link node)
    (hrest : ChainFrom link' goes (link' last) rest) :
    ChainFrom link' goes first (front ++ last :: rest) := by
  induction front generalizing first with
  | nil =>
      obtain ⟨rfl, hgoes, -⟩ := h
      exact ⟨rfl, hgoes, hrest⟩
  | cons head front ih =>
      obtain ⟨rfl, hgoes, hnext⟩ := h
      refine ⟨rfl, hgoes, ?_⟩
      rw [hsame head (List.mem_cons_self ..)]
      exact ih hnext fun node hmem => hsame node (List.mem_cons_of_mem _ hmem)

/-- A chain in a finite set is no longer than the set. -/
theorem length_le
    [DecidableEq Node] {nodesOf : Finset Node}
    (h : ChainFrom link goes first nodes) (hsub : ∀ node ∈ nodes, node ∈ nodesOf) :
    nodes.length ≤ nodesOf.card := by
  rw [← List.toFinset_card_of_nodup h.nodup]
  exact Finset.card_le_card fun node hmem => hsub node (List.mem_toFinset.1 hmem)

end ChainFrom

namespace LinkedTo

variable {Node : Type} {link link' : Node → Node} {goes : Node → Prop}
  {first node last : Node} {front : List Node}

theorem congr
    (h : LinkedTo link first front last)
    (hsame : ∀ node ∈ front, link' node = link node) :
    LinkedTo link' first front last := by
  induction front generalizing first with
  | nil => exact h
  | cons head rest ih =>
      obtain ⟨rfl, hrest⟩ := h
      refine ⟨rfl, ?_⟩
      rw [hsame head List.mem_cons_self]
      exact ih hrest fun node hmem => hsame node (List.mem_cons_of_mem _ hmem)

theorem concat
    (h : LinkedTo link first front last) (hlink : link last = node) :
    LinkedTo link first (front ++ [last]) node := by
  induction front generalizing first with
  | nil =>
      obtain rfl := h
      exact ⟨rfl, hlink⟩
  | cons head rest ih => exact ⟨h.1, ih h.2⟩

theorem head?_eq
    (h : LinkedTo link first front last) :
    (front ++ [last]).head? = some first := by
  cases front with
  | nil =>
      obtain rfl := h
      rfl
  | cons head rest =>
      obtain ⟨rfl, -⟩ := h
      rfl

/-- A node on the way leads to a node on the way. -/
theorem link_mem
    (h : LinkedTo link first front last) (hmem : node ∈ front) :
    link node ∈ front ++ [last] := by
  induction front generalizing first with
  | nil => exact absurd hmem List.not_mem_nil
  | cons head rest ih =>
      obtain ⟨rfl, hrest⟩ := h
      rw [List.cons_append]
      rcases List.mem_cons.1 hmem with rfl | hmem
      · exact List.mem_cons_of_mem _
          (List.mem_of_head? hrest.head?_eq)
      · exact List.mem_cons_of_mem _ (ih hrest hmem)

/-- A way whose last node does not lead on is a chain. -/
theorem chainFrom
    (h : LinkedTo link first front last)
    (hgoes : ∀ node ∈ front ++ [last], goes node) (hend : ¬goes (link last)) :
    ChainFrom link goes first (front ++ [last]) := by
  induction front generalizing first with
  | nil =>
      obtain rfl := h
      exact ⟨rfl, hgoes first (List.mem_singleton_self _), hend⟩
  | cons head rest ih =>
      obtain ⟨rfl, hrest⟩ := h
      exact ⟨rfl, hgoes head List.mem_cons_self,
        ih hrest fun node hmem => hgoes node (List.mem_cons_of_mem _ hmem)⟩

end LinkedTo

end ClOs
