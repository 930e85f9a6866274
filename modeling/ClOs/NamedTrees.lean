import Mathlib.Data.List.Nodup
import Mathlib.Tactic

/-!
# Trees of named items

A forest gives every node a list of named items, and each item leads to a node.
The nodes that inner items lead to from the root are the directories.  In a tree
every node is led to at most once, so a directory has one path, and an item that
is added to a directory or taken out of it changes what is found under its own
name only.
-/

namespace ClOs

structure Forest (Node Item Name : Type) where
  root : Node
  items : Node → List Item
  target : Item → Node
  inner : Item → Bool
  name : Item → Name

namespace Forest

variable {Node Item Name : Type}

/-- The nodes that inner items lead to from the root. -/
inductive Directory (F : Forest Node Item Name) : Node → Prop
  | root : Directory F F.root
  | child {d : Node} {e : Item} : Directory F d → e ∈ F.items d →
      F.inner e = true → Directory F (F.target e)

/-- The root, or a node that an item of a directory leads to. -/
def Owned (F : Forest Node Item Name) (x : Node) : Prop :=
  x = F.root ∨ ∃ d e, F.Directory d ∧ e ∈ F.items d ∧ F.target e = x

/-- No node is led to twice. -/
structure Tree (F : Forest Node Item Name) : Prop where
  root : ∀ {d e}, F.Directory d → e ∈ F.items d → F.target e ≠ F.root
  targets : ∀ {d}, F.Directory d → ((F.items d).map F.target).Nodup
  apart : ∀ {d d' e e'}, F.Directory d → F.Directory d' → e ∈ F.items d →
    e' ∈ F.items d' → F.target e = F.target e' → d = d'

def Unique (F : Forest Node Item Name) : Prop :=
  ∀ d, F.Directory d → ((F.items d).map F.name).Nodup

/-- `large` has the items of `small` and `e` in the directory `d`. -/
structure Adds (small large : Forest Node Item Name) (d : Node) (e : Item) :
    Prop where
  directory : small.Directory d
  root : large.root = small.root
  target : large.target = small.target
  inner : large.inner = small.inner
  name : large.name = small.name
  items : ∃ front rest, small.items d = front ++ rest ∧
    large.items d = front ++ e :: rest
  others : ∀ x, small.Directory x → x ≠ d → large.items x = small.items x
  fresh : ¬small.Owned (small.target e)
  empty : small.inner e = true → large.items (small.target e) = []

/-- `small` is what is left of `large` without the item `e` of `d`, a leaf or an
empty directory. -/
structure Removes (large small : Forest Node Item Name) (d : Node) (e : Item) :
    Prop where
  directory : large.Directory d
  root : small.root = large.root
  target : small.target = large.target
  inner : small.inner = large.inner
  name : small.name = large.name
  items : ∃ front rest, large.items d = front ++ e :: rest ∧
    small.items d = front ++ rest
  others : ∀ x, large.Directory x → x ≠ d →
    ¬(large.inner e = true ∧ x = large.target e) →
      small.items x = large.items x
  empty : large.inner e = true → large.items (large.target e) = []

/-- `G` has the directories of `F` with the same items. -/
structure Agrees (F G : Forest Node Item Name) : Prop where
  root : G.root = F.root
  target : G.target = F.target
  inner : G.inner = F.inner
  name : G.name = F.name
  items : ∀ x, F.Directory x → G.items x = F.items x

section

variable {F G H small large : Forest Node Item Name} {d x : Node} {e f : Item}

theorem Directory.owned (h : F.Directory x) : F.Owned x := by
  cases h with
  | root => exact .inl rfl
  | child hd he _ => exact .inr ⟨_, _, hd, he, rfl⟩

theorem owned_of_mem (hd : F.Directory d) (he : e ∈ F.items d) :
    F.Owned (F.target e) :=
  .inr ⟨d, e, hd, he, rfl⟩

/-- The item that leads to a node is unique as well. -/
theorem Tree.item_eq
    (h : F.Tree) (hd : F.Directory d) (he : e ∈ F.items d)
    (hf : f ∈ F.items d) (htarget : F.target e = F.target f) : e = f :=
  List.inj_on_of_nodup_map (h.targets hd) he hf htarget

theorem Tree.inner_of_directory
    (h : F.Tree) (hd : F.Directory d) (he : e ∈ F.items d)
    (hdirectory : F.Directory (F.target e)) : F.inner e = true := by
  generalize hx : F.target e = x at hdirectory
  cases hdirectory with
  | root => exact absurd hx (h.root hd he)
  | @child d' f hd' hf hinner =>
      have hplace := h.apart hd hd' he hf hx
      subst hplace
      rw [h.item_eq hd he hf hx]
      exact hinner

theorem directory_mem
    {ds : List Node} (hroot : F.root ∈ ds)
    (hinner : ∀ d ∈ ds, ∀ e ∈ F.items d, F.inner e = true → F.target e ∈ ds)
    (hx : F.Directory x) : x ∈ ds := by
  induction hx with
  | root => exact hroot
  | child _ he hin ih => exact hinner _ ih _ he hin

theorem tree_of_nodup
    {ds : List Node} (hroot : F.root ∈ ds)
    (hinner : ∀ d ∈ ds, ∀ e ∈ F.items d, F.inner e = true → F.target e ∈ ds)
    (hnodup : (F.root :: ds.flatMap fun d => (F.items d).map F.target).Nodup) :
    F.Tree := by
  obtain ⟨hfresh, htargets⟩ := List.nodup_cons.1 hnodup
  obtain ⟨hone, hpairs⟩ := List.nodup_flatMap.1 htargets
  refine ⟨?_, ?_, ?_⟩
  · intro d e hd he htarget
    refine hfresh (htarget ▸ List.mem_flatMap.2 ⟨d, ?_, List.mem_map_of_mem he⟩)
    exact directory_mem hroot hinner hd
  · exact fun hd => hone _ (directory_mem hroot hinner hd)
  · intro d d' e e' hd hd' he he' htarget
    by_contra hne
    have hsymm : Std.Symm (Function.onFun List.Disjoint fun d =>
        (F.items d).map F.target) := ⟨fun _ _ hpair => hpair.symm⟩
    have hapart := hpairs.forall
      (directory_mem hroot hinner hd) (directory_mem hroot hinner hd') hne
    exact hapart (List.mem_map_of_mem he) (htarget ▸ List.mem_map_of_mem he')

/-! ## The same directories -/

theorem Agrees.directory_iff (h : F.Agrees G) :
    G.Directory x ↔ F.Directory x := by
  constructor
  · intro hx
    induction hx with
    | root =>
        rw [h.root]
        exact .root
    | child hd he hinner ih =>
        rw [h.items _ ih] at he
        rw [h.inner] at hinner
        rw [h.target]
        exact .child ih he hinner
  · intro hx
    induction hx with
    | root =>
        rw [← h.root]
        exact .root
    | child hd he hinner ih =>
        rw [← h.items _ hd] at he
        rw [← h.inner] at hinner
        rw [← h.target]
        exact .child ih he hinner

theorem Agrees.owned_iff (h : F.Agrees G) : G.Owned x ↔ F.Owned x := by
  unfold Owned
  rw [h.root, h.target]
  refine or_congr_right (exists_congr fun d => exists_congr fun e => ?_)
  rw [h.directory_iff]
  refine and_congr_right fun hd => ?_
  rw [h.items d hd]

theorem Agrees.tree (h : F.Agrees G) (htree : F.Tree) : G.Tree where
  root := by
    intro d e hd he
    rw [h.directory_iff] at hd
    rw [h.items d hd] at he
    rw [h.target, h.root]
    exact htree.root hd he
  targets := by
    intro d hd
    rw [h.directory_iff] at hd
    rw [h.items d hd, h.target]
    exact htree.targets hd
  apart := by
    intro d d' e e' hd hd' he he' htarget
    rw [h.directory_iff] at hd hd'
    rw [h.items _ hd] at he
    rw [h.items _ hd'] at he'
    rw [h.target] at htarget
    exact htree.apart hd hd' he he' htarget

theorem Agrees.unique (h : F.Agrees G) (hunique : F.Unique) : G.Unique := by
  intro d hd
  rw [h.directory_iff] at hd
  rw [h.items d hd, h.name]
  exact hunique d hd

/-- An item that is added to the same directories. -/
theorem Agrees.adds
    (h : F.Agrees G) (hadds : G.Adds H d e) : F.Adds H d e where
  directory := h.directory_iff.1 hadds.directory
  root := hadds.root.trans h.root
  target := hadds.target.trans h.target
  inner := hadds.inner.trans h.inner
  name := hadds.name.trans h.name
  items := by
    rw [← h.items d (h.directory_iff.1 hadds.directory)]
    exact hadds.items
  others := by
    intro x hx hne
    rw [hadds.others x (h.directory_iff.2 hx) hne, h.items x hx]
  fresh := by
    rw [← h.owned_iff, ← h.target]
    exact hadds.fresh
  empty := by
    rw [← h.inner, ← h.target]
    exact hadds.empty

/-! ## Adding an item -/

theorem Adds.sublist (h : small.Adds large d e) :
    (small.items d).Sublist (large.items d) := by
  obtain ⟨front, rest, hsmall, hlarge⟩ := h.items
  rw [hsmall, hlarge]
  exact List.Sublist.append_left (List.sublist_cons_self _ _) _

theorem Adds.mem (h : small.Adds large d e) : e ∈ large.items d := by
  obtain ⟨front, rest, -, hlarge⟩ := h.items
  rw [hlarge]
  exact List.mem_append_right _ List.mem_cons_self

theorem Adds.mem_items
    (h : small.Adds large d e) (hx : small.Directory x) :
    f ∈ large.items x ↔ f ∈ small.items x ∨ (x = d ∧ f = e) := by
  by_cases hsame : x = d
  · subst hsame
    obtain ⟨front, rest, hsmall, hlarge⟩ := h.items
    rw [hsmall, hlarge]
    simp only [List.mem_append, List.mem_cons, true_and]
    tauto
  · rw [h.others x hx hsame]
    simp [hsame]

theorem Adds.directory_iff (h : small.Adds large d e) :
    large.Directory x ↔
      small.Directory x ∨ (small.inner e = true ∧ x = small.target e) := by
  have hgrow : ∀ y, small.Directory y → large.Directory y := by
    intro y hy
    induction hy with
    | root =>
        rw [← h.root]
        exact .root
    | child hd hmem hinner ih =>
        rw [← h.target]
        refine .child ih ((h.mem_items hd).2 (.inl hmem)) ?_
        rw [h.inner]
        exact hinner
  constructor
  · intro hx
    induction hx with
    | root =>
        rw [h.root]
        exact .inl .root
    | child hd hmem hinner ih =>
        rw [h.inner] at hinner
        rw [h.target]
        rcases ih with hold | ⟨he, rfl⟩
        · rcases (h.mem_items hold).1 hmem with hkept | ⟨-, rfl⟩
          · exact .inl (.child hold hkept hinner)
          · exact .inr ⟨hinner, rfl⟩
        · rw [h.empty he] at hmem
          cases hmem
  · rintro (hold | ⟨hinner, rfl⟩)
    · exact hgrow x hold
    · rw [← h.target]
      refine .child (hgrow d h.directory) h.mem ?_
      rw [h.inner]
      exact hinner

theorem Adds.owned_iff (h : small.Adds large d e) :
    large.Owned x ↔ small.Owned x ∨ x = small.target e := by
  constructor
  · rintro (hroot | ⟨y, f, hy, hf, htarget⟩)
    · exact .inl (.inl (hroot.trans h.root))
    · rw [h.target] at htarget
      rcases h.directory_iff.1 hy with hold | ⟨he, rfl⟩
      · rcases (h.mem_items hold).1 hf with hkept | ⟨-, rfl⟩
        · exact .inl (.inr ⟨y, f, hold, hkept, htarget⟩)
        · exact .inr htarget.symm
      · rw [h.empty he] at hf
        cases hf
  · rintro ((hroot | ⟨y, f, hy, hf, htarget⟩) | hnew)
    · exact .inl (hroot.trans h.root.symm)
    · refine .inr ⟨y, f, h.directory_iff.2 (.inl hy),
        (h.mem_items hy).2 (.inl hf), ?_⟩
      rw [h.target]
      exact htarget
    · refine .inr ⟨d, e, h.directory_iff.2 (.inl h.directory), h.mem, ?_⟩
      rw [h.target]
      exact hnew.symm

theorem Adds.item_cases
    (h : small.Adds large d e) (hx : large.Directory x)
    (hf : f ∈ large.items x) :
    (small.Directory x ∧ f ∈ small.items x) ∨ (x = d ∧ f = e) := by
  rcases h.directory_iff.1 hx with hold | ⟨he, rfl⟩
  · rcases (h.mem_items hold).1 hf with hkept | hnew
    · exact .inl ⟨hold, hkept⟩
    · exact .inr hnew
  · rw [h.empty he] at hf
    cases hf

theorem Adds.tree (h : small.Adds large d e) (htree : small.Tree) :
    large.Tree where
  root := by
    intro x f hx hf
    rw [h.target, h.root]
    rcases h.item_cases hx hf with ⟨hold, hkept⟩ | ⟨-, rfl⟩
    · exact htree.root hold hkept
    · intro hroot
      exact h.fresh (.inl hroot)
  targets := by
    intro x hx
    rw [h.target]
    rcases h.directory_iff.1 hx with hold | ⟨he, rfl⟩
    · by_cases hsame : x = d
      · subst hsame
        obtain ⟨front, rest, hsmall, hlarge⟩ := h.items
        have hnodup := htree.targets hold
        rw [hsmall] at hnodup
        rw [hlarge, List.map_append, List.map_cons, List.nodup_middle,
          List.nodup_cons, ← List.map_append]
        refine ⟨fun hmem => ?_, hnodup⟩
        obtain ⟨f, hf, htarget⟩ := List.mem_map.1 hmem
        rw [← hsmall] at hf
        exact h.fresh (htarget ▸ owned_of_mem hold hf)
      · rw [h.others x hold hsame]
        exact htree.targets hold
    · rw [h.empty he]
      exact List.nodup_nil
  apart := by
    intro x y f g hx hy hf hg htarget
    rw [h.target] at htarget
    rcases h.item_cases hx hf with ⟨hxold, hfold⟩ | ⟨rfl, rfl⟩
    · rcases h.item_cases hy hg with ⟨hyold, hgold⟩ | ⟨rfl, rfl⟩
      · exact htree.apart hxold hyold hfold hgold htarget
      · exact absurd (htarget ▸ owned_of_mem hxold hfold) h.fresh
    · rcases h.item_cases hy hg with ⟨hyold, hgold⟩ | ⟨rfl, rfl⟩
      · exact absurd (htarget ▸ owned_of_mem hyold hgold) h.fresh
      · rfl

/-! ## Taking an item out -/

theorem Removes.mem (h : large.Removes small d e) : e ∈ large.items d := by
  obtain ⟨front, rest, hlarge, -⟩ := h.items
  rw [hlarge]
  exact List.mem_append_right _ List.mem_cons_self

/-- A directory that is taken out is not the one it is taken out of. -/
theorem Removes.ne_target
    (h : large.Removes small d e) (hinner : large.inner e = true) :
    d ≠ large.target e := by
  intro hsame
  have hmem := h.mem
  rw [hsame, h.empty hinner] at hmem
  cases hmem

theorem Removes.mem_items
    (h : large.Removes small d e) (htree : large.Tree)
    (hx : large.Directory x)
    (hne : ¬(large.inner e = true ∧ x = large.target e)) :
    f ∈ small.items x ↔ f ∈ large.items x ∧ ¬(x = d ∧ f = e) := by
  by_cases hsame : x = d
  · subst hsame
    obtain ⟨front, rest, hlarge, hsmall⟩ := h.items
    have hnodup := (htree.targets hx).of_map
    rw [hlarge, List.nodup_middle, List.nodup_cons] at hnodup
    rw [hsmall, hlarge]
    constructor
    · intro hmem
      refine ⟨?_, ?_⟩
      · rw [List.mem_append, List.mem_cons]
        rw [List.mem_append] at hmem
        tauto
      · rintro ⟨-, rfl⟩
        exact hnodup.1 hmem
    · rintro ⟨hmem, hother⟩
      rw [List.mem_append, List.mem_cons] at hmem
      rw [List.mem_append]
      tauto
  · rw [h.others x hx hsame hne]
    simp [hsame]

theorem Removes.directory_iff
    (h : large.Removes small d e) (htree : large.Tree) :
    small.Directory x ↔ large.Directory x ∧
      ¬(large.inner e = true ∧ x = large.target e) := by
  constructor
  · intro hx
    induction hx with
    | root =>
        rw [h.root]
        refine ⟨.root, fun hsame => ?_⟩
        exact htree.root h.directory h.mem hsame.2.symm
    | child hd hmem hinner ih =>
        obtain ⟨hlarge, hne⟩ := ih
        rw [h.inner] at hinner
        rw [h.target]
        obtain ⟨hkept, hother⟩ :=
          (h.mem_items htree hlarge hne).1 hmem
        refine ⟨.child hlarge hkept hinner, fun hsame => hother ?_⟩
        have hplace := htree.apart hlarge h.directory hkept h.mem hsame.2
        subst hplace
        exact ⟨rfl, htree.item_eq hlarge hkept h.mem hsame.2⟩
  · rintro ⟨hx, hne⟩
    induction hx with
    | root =>
        rw [← h.root]
        exact .root
    | @child y f hd hmem hinner ih =>
        have hplace : ¬(large.inner e = true ∧ y = large.target e) := by
          rintro ⟨he, rfl⟩
          rw [h.empty he] at hmem
          cases hmem
        rw [← h.target]
        refine .child (ih hplace) ((h.mem_items htree hd hplace).2
          ⟨hmem, ?_⟩) ?_
        · rintro ⟨-, rfl⟩
          exact hne ⟨hinner, rfl⟩
        · rw [h.inner]
          exact hinner

/-- Putting the item back gives the larger forest. -/
theorem Removes.adds
    (h : large.Removes small d e) (htree : large.Tree) :
    small.Adds large d e where
  directory := (h.directory_iff htree).2
    ⟨h.directory, fun hsame => h.ne_target hsame.1 hsame.2⟩
  root := h.root.symm
  target := h.target.symm
  inner := h.inner.symm
  name := h.name.symm
  items := by
    obtain ⟨front, rest, hlarge, hsmall⟩ := h.items
    exact ⟨front, rest, hsmall, hlarge⟩
  others := by
    intro x hx hne
    obtain ⟨hlarge, hother⟩ := (h.directory_iff htree).1 hx
    exact (h.others x hlarge hne hother).symm
  fresh := by
    rw [h.target]
    rintro (hroot | ⟨y, f, hy, hf, htarget⟩)
    · rw [h.root] at hroot
      exact htree.root h.directory h.mem hroot
    · rw [h.target] at htarget
      obtain ⟨hlarge, hne⟩ := (h.directory_iff htree).1 hy
      obtain ⟨hkept, hother⟩ := (h.mem_items htree hlarge hne).1 hf
      have hplace := htree.apart hlarge h.directory hkept h.mem htarget
      subst hplace
      exact hother ⟨rfl, htree.item_eq hlarge hkept h.mem htarget⟩
  empty := by
    rw [h.inner, h.target]
    exact h.empty

theorem Adds.tree_of_large
    (h : small.Adds large d e) (htree : large.Tree) : small.Tree where
  root := by
    intro x f hx hf
    have hroot := htree.root (h.directory_iff.2 (.inl hx))
      ((h.mem_items hx).2 (.inl hf))
    rwa [h.target, h.root] at hroot
  targets := by
    intro x hx
    have hnodup := htree.targets (h.directory_iff.2 (.inl hx))
    rw [h.target] at hnodup
    by_cases hsame : x = d
    · subst hsame
      exact hnodup.sublist (h.sublist.map _)
    · rwa [h.others x hx hsame] at hnodup
  apart := by
    intro x y f g hx hy hf hg htarget
    rw [← h.target] at htarget
    exact htree.apart (h.directory_iff.2 (.inl hx))
      (h.directory_iff.2 (.inl hy)) ((h.mem_items hx).2 (.inl hf))
      ((h.mem_items hy).2 (.inl hg)) htarget

theorem Adds.unique_of_large
    (h : small.Adds large d e) (hunique : large.Unique) : small.Unique := by
  intro x hx
  have hnodup := hunique x (h.directory_iff.2 (.inl hx))
  rw [h.name] at hnodup
  by_cases hsame : x = d
  · subst hsame
    exact hnodup.sublist (h.sublist.map _)
  · rwa [h.others x hx hsame] at hnodup

/-- A new name keeps the names of a directory apart. -/
theorem Adds.unique
    (h : small.Adds large d e) (hunique : small.Unique)
    (hnew : ∀ f ∈ small.items d, small.name f ≠ small.name e) :
    large.Unique := by
  intro x hx
  rw [h.name]
  rcases h.directory_iff.1 hx with hold | ⟨he, rfl⟩
  · by_cases hsame : x = d
    · subst hsame
      obtain ⟨front, rest, hsmall, hlarge⟩ := h.items
      have hnodup := hunique x hold
      rw [hsmall] at hnodup hnew
      rw [hlarge, List.map_append, List.map_cons, List.nodup_middle,
        List.nodup_cons, ← List.map_append]
      refine ⟨fun hmem => ?_, hnodup⟩
      obtain ⟨f, hf, hname⟩ := List.mem_map.1 hmem
      exact hnew f hf hname
    · rw [h.others x hold hsame]
      exact hunique x hold
  · rw [h.empty he]
    exact List.nodup_nil

end

/-! ## Looking names up -/

variable [DecidableEq Name]

def find (F : Forest Node Item Name) (d : Node) (n : Name) : Option Item :=
  (F.items d).find? (fun e => F.name e = n)

/-- The node that names lead to when all their items are inner ones. -/
def enter (F : Forest Node Item Name) : Node → List Name → Option Node
  | d, [] => some d
  | d, n :: rest =>
      (F.find d n).bind fun e =>
        if F.inner e = true then F.enter (F.target e) rest else none

def follow (F : Forest Node Item Name) : Node → List Name → Option (Node × Item)
  | _, [] => none
  | d, [n] => (F.find d n).map (fun e => (d, e))
  | d, n :: next :: rest =>
      (F.find d n).bind fun e =>
        if F.inner e = true then F.follow (F.target e) (next :: rest) else none

section

variable {F G small large : Forest Node Item Name} {d x y : Node} {e f : Item}
  {n : Name} {names front post : List Name}

theorem find_eq_some
    (h : F.find d n = some e) : e ∈ F.items d ∧ F.name e = n := by
  unfold find at h
  exact ⟨List.mem_of_find?_eq_some h, by
    simpa using List.find?_some h⟩

theorem find_eq_none :
    F.find d n = none ↔ ∀ e ∈ F.items d, F.name e ≠ n := by
  unfold find
  simp [List.find?_eq_none]

/-- With unique names every item is found under its own. -/
theorem Unique.find
    (h : F.Unique) (hd : F.Directory d) (he : e ∈ F.items d) :
    F.find d (F.name e) = some e := by
  cases hfind : F.find d (F.name e) with
  | none => exact absurd rfl (find_eq_none.1 hfind e he)
  | some f =>
      obtain ⟨hf, hname⟩ := find_eq_some hfind
      rw [List.inj_on_of_nodup_map (h d hd) hf he hname]

theorem enter_append (F : Forest Node Item Name) (d : Node)
    (names post : List Name) :
    F.enter d (names ++ post) =
      (F.enter d names).bind fun x => F.enter x post := by
  induction names generalizing d with
  | nil => rfl
  | cons n rest ih =>
      rw [List.cons_append, enter, enter, Option.bind_assoc]
      congr 1
      funext e
      split_ifs
      · exact ih _
      · rfl

theorem enter_concat_eq_some :
    F.enter d (names ++ [n]) = some x ↔
      ∃ y e, F.enter d names = some y ∧ F.find y n = some e ∧
        F.inner e = true ∧ F.target e = x := by
  rw [enter_append]
  simp only [Option.bind_eq_some_iff, enter]
  constructor
  · rintro ⟨y, hy, e, he, hx⟩
    split_ifs at hx with hinner
    rw [Option.some.injEq] at hx
    exact ⟨y, e, hy, he, hinner, hx⟩
  · rintro ⟨y, e, hy, he, hinner, rfl⟩
    exact ⟨y, hy, e, he, by rw [if_pos hinner]⟩

theorem follow_concat (F : Forest Node Item Name) (d : Node)
    (names : List Name) (n : Name) :
    F.follow d (names ++ [n]) =
      (F.enter d names).bind fun x => (F.find x n).map fun e => (x, e) := by
  induction names generalizing d with
  | nil => rfl
  | cons m rest ih =>
      obtain ⟨next, others, hsplit⟩ :
          ∃ next others, rest ++ [n] = next :: others :=
        List.exists_cons_of_ne_nil (by simp)
      rw [List.cons_append, hsplit, follow, enter, Option.bind_assoc]
      congr 1
      funext e
      split_ifs
      · rw [← hsplit, ih]
      · rfl

theorem follow_concat_eq_some :
    F.follow d (names ++ [n]) = some (x, e) ↔
      F.enter d names = some x ∧ F.find x n = some e := by
  rw [follow_concat]
  simp only [Option.bind_eq_some_iff, Option.map_eq_some_iff, Prod.mk.injEq]
  constructor
  · rintro ⟨y, hy, f, hf, rfl, rfl⟩
    exact ⟨hy, hf⟩
  · rintro ⟨hx, he⟩
    exact ⟨x, hx, e, he, rfl, rfl⟩

theorem directory_of_enter
    (hd : F.Directory d) (h : F.enter d names = some x) : F.Directory x := by
  induction names generalizing d with
  | nil =>
      rw [enter, Option.some.injEq] at h
      exact h ▸ hd
  | cons n rest ih =>
      rw [enter, Option.bind_eq_some_iff] at h
      obtain ⟨e, he, h⟩ := h
      split_ifs at h with hinner
      exact ih (.child hd (find_eq_some he).1 hinner) h

theorem mem_of_follow
    (hd : F.Directory d) (h : F.follow d names = some (x, e)) :
    F.Directory x ∧ e ∈ F.items x := by
  rcases List.eq_nil_or_concat names with rfl | ⟨front, n, rfl⟩
  · cases h
  · rw [List.concat_eq_append, follow_concat_eq_some] at h
    exact ⟨directory_of_enter hd h.1, (find_eq_some h.2).1⟩

theorem enter_eq_bind_follow (F : Forest Node Item Name) (d : Node)
    (hnames : names ≠ []) :
    F.enter d names = (F.follow d names).bind fun found =>
      if F.inner found.2 = true then some (F.target found.2) else none := by
  obtain ⟨front, n, rfl⟩ : ∃ front n, names = front ++ [n] :=
    ⟨_, _, (List.dropLast_append_getLast hnames).symm⟩
  rw [follow_concat, enter_append, Option.bind_assoc]
  congr 1
  funext x
  rw [enter]
  cases F.find x n <;> rfl

/-- Names that lead to nothing or to a leaf lead to nothing beyond it. -/
theorem follow_past
    (hnames : names ≠ [])
    (hleaf : ∀ y f, F.follow d names = some (y, f) → F.inner f = false)
    (hpost : post ≠ []) : F.follow d (names ++ post) = none := by
  have hnone : F.enter d names = none := by
    rw [enter_eq_bind_follow F d hnames]
    cases hfollow : F.follow d names with
    | none => rfl
    | some found =>
        obtain ⟨y, f⟩ := found
        rw [Option.bind_some, if_neg (by simp [hleaf y f hfollow])]
  obtain ⟨rest, n, rfl⟩ : ∃ rest n, post = rest ++ [n] :=
    ⟨_, _, (List.dropLast_append_getLast hpost).symm⟩
  rw [← List.append_assoc, follow_concat, enter_append, hnone]
  rfl

/-- Names lead nowhere behind a node without items. -/
theorem follow_empty
    (henter : F.enter d names = some x) (hempty : F.items x = [])
    (hpost : post ≠ []) : F.follow d (names ++ post) = none := by
  have hnone : ∀ n, F.find x n = none := by
    intro n
    refine find_eq_none.2 fun e he => ?_
    rw [hempty] at he
    cases he
  obtain ⟨rest, n, rfl⟩ : ∃ rest n, post = rest ++ [n] :=
    ⟨_, _, (List.dropLast_append_getLast hpost).symm⟩
  rw [← List.append_assoc, follow_concat, enter_append, henter,
    Option.bind_some]
  cases rest with
  | nil => rw [enter, Option.bind_some, hnone, Option.map_none]
  | cons m others => rw [enter, hnone, Option.bind_none, Option.bind_none]

theorem Agrees.find_eq
    (h : F.Agrees G) (hx : F.Directory x) (n : Name) :
    G.find x n = F.find x n := by
  unfold find
  rw [h.items x hx, h.name]

theorem Agrees.enter_eq
    (h : F.Agrees G) (hx : F.Directory x) (names : List Name) :
    G.enter x names = F.enter x names := by
  induction names generalizing x with
  | nil => rfl
  | cons n rest ih =>
      rw [enter, enter, h.find_eq hx, h.inner, h.target]
      cases hfind : F.find x n with
      | none => rfl
      | some e =>
          simp only [Option.bind_some]
          split_ifs with hinner
          · exact ih (.child hx (find_eq_some hfind).1 hinner)
          · rfl

theorem Agrees.follow_eq
    (h : F.Agrees G) (hx : F.Directory x) (names : List Name) :
    G.follow x names = F.follow x names := by
  rcases List.eq_nil_or_concat names with rfl | ⟨front, n, rfl⟩
  · rfl
  rw [List.concat_eq_append, follow_concat, follow_concat, h.enter_eq hx]
  cases hy : F.enter x front with
  | none => rfl
  | some y =>
      simp only [Option.bind_some]
      rw [h.find_eq (directory_of_enter hx hy)]

theorem Unique.exists_enter
    (h : F.Unique) (hd : F.Directory d) :
    ∃ names, F.enter F.root names = some d := by
  induction hd with
  | root => exact ⟨[], rfl⟩
  | @child d e hd he hinner ih =>
      obtain ⟨names, hnames⟩ := ih
      exact ⟨names ++ [F.name e], enter_concat_eq_some.2
        ⟨d, e, hnames, h.find hd he, hinner, rfl⟩⟩

/-- A directory has one path. -/
theorem Tree.enter_unique
    (htree : F.Tree) (hfront : F.enter F.root front = some x)
    (hnames : F.enter F.root names = some x) : front = names := by
  induction front using List.reverseRecOn generalizing x names with
  | nil =>
      rw [enter, Option.some.injEq] at hfront
      rcases List.eq_nil_or_concat names with rfl | ⟨rest, n, rfl⟩
      · rfl
      · rw [List.concat_eq_append] at hnames
        obtain ⟨y, e, hy, he, -, htarget⟩ := enter_concat_eq_some.1 hnames
        exact absurd (htarget.trans hfront.symm)
          (htree.root (directory_of_enter .root hy) (find_eq_some he).1)
  | append_singleton front m ih =>
      obtain ⟨y, e, hy, he, -, htarget⟩ := enter_concat_eq_some.1 hfront
      have hyd := directory_of_enter .root hy
      rcases List.eq_nil_or_concat names with rfl | ⟨rest, n, rfl⟩
      · rw [enter, Option.some.injEq] at hnames
        exact absurd (htarget.trans hnames.symm)
          (htree.root hyd (find_eq_some he).1)
      · rw [List.concat_eq_append] at hnames ⊢
        obtain ⟨z, f, hz, hf, -, hother⟩ := enter_concat_eq_some.1 hnames
        have hzd := directory_of_enter .root hz
        have hsame := htarget.trans hother.symm
        have hplace := htree.apart hyd hzd (find_eq_some he).1
          (find_eq_some hf).1 hsame
        subst hplace
        have hitem := htree.item_eq hyd (find_eq_some he).1
          (find_eq_some hf).1 hsame
        subst hitem
        rw [ih hy hz, ← (find_eq_some he).2, ← (find_eq_some hf).2]

/-! ## Lookups and an added item -/

theorem Adds.find_of_ne
    (h : small.Adds large d e) (hx : small.Directory x)
    (hne : ¬(x = d ∧ small.name e = n)) :
    large.find x n = small.find x n := by
  unfold find
  rw [h.name]
  by_cases hsame : x = d
  · subst hsame
    obtain ⟨front, rest, hsmall, hlarge⟩ := h.items
    have hname : small.name e ≠ n := fun hname => hne ⟨rfl, hname⟩
    rw [hsmall, hlarge, List.find?_append, List.find?_append,
      List.find?_cons_of_neg (by simpa using hname)]
  · rw [h.others x hx hsame]

theorem Adds.find_new
    (h : small.Adds large d e) (hunique : large.Unique) :
    large.find d (small.name e) = some e := by
  rw [← h.name]
  exact hunique.find (h.directory_iff.2 (.inl h.directory)) h.mem

/-- The name of an added item was free. -/
theorem Adds.find_small
    (h : small.Adds large d e) (hunique : large.Unique) :
    small.find d (small.name e) = none := by
  refine find_eq_none.2 fun f hf hname => h.fresh ?_
  rw [← h.name] at hname
  have hsame := List.inj_on_of_nodup_map
    (hunique d (h.directory_iff.2 (.inl h.directory)))
    ((h.mem_items h.directory).2 (.inl hf)) h.mem hname
  rw [← hsame]
  exact owned_of_mem h.directory hf

theorem Adds.find_mono
    (h : small.Adds large d e) (hunique : large.Unique)
    (hx : small.Directory x) (hfind : small.find x n = some f) :
    large.find x n = some f := by
  rw [h.find_of_ne hx, hfind]
  rintro ⟨rfl, rfl⟩
  rw [h.find_small hunique] at hfind
  cases hfind

theorem Adds.enter_mono
    (h : small.Adds large d e) (hunique : large.Unique)
    (hx : small.Directory x) (hnames : small.enter x names = some y) :
    large.enter x names = some y := by
  induction names generalizing x with
  | nil => exact hnames
  | cons n rest ih =>
      rw [enter, Option.bind_eq_some_iff] at hnames ⊢
      obtain ⟨f, hf, hnames⟩ := hnames
      split_ifs at hnames with hinner
      refine ⟨f, h.find_mono hunique hx hf, ?_⟩
      rw [h.inner, if_pos hinner, h.target]
      exact ih (.child hx (find_eq_some hf).1 hinner) hnames

/-- Names that do not pass through the added item visit directories of the
smaller forest and find there what they found before. -/
theorem Adds.find_along
    (h : small.Adds large d e) (htree : large.Tree) (hunique : large.Unique)
    (hfront : large.enter large.root front = some d)
    (hnames : large.enter large.root names = some x)
    (hpast : ¬(front ++ [small.name e]) <+: names ++ n :: post) :
    large.find x n = small.find x n := by
  rcases h.directory_iff.1 (directory_of_enter .root hnames) with
    hold | ⟨hinner, rfl⟩
  · refine h.find_of_ne hold ?_
    rintro ⟨rfl, rfl⟩
    have hsame := htree.enter_unique hnames hfront
    subst hsame
    exact hpast ⟨post, by simp⟩
  · have hnew : large.enter large.root (front ++ [small.name e]) =
        some (small.target e) := by
      refine enter_concat_eq_some.2 ⟨d, e, hfront, h.find_new hunique, ?_, ?_⟩
      · rw [h.inner]
        exact hinner
      · rw [h.target]
    rw [htree.enter_unique hnames hnew] at hpast
    exact absurd (List.prefix_append _ _) hpast

theorem Adds.enter_eq
    (h : small.Adds large d e) (htree : large.Tree) (hunique : large.Unique)
    (hfront : large.enter large.root front = some d)
    (hnames : large.enter large.root names = some x)
    (hpast : ¬(front ++ [small.name e]) <+: names ++ post) :
    large.enter x post = small.enter x post := by
  induction post generalizing x names with
  | nil => rfl
  | cons n rest ih =>
      have hfind := h.find_along htree hunique hfront hnames hpast
      rw [enter, enter, ← hfind, h.inner, h.target]
      cases hf : large.find x n with
      | none => rfl
      | some f =>
          simp only [Option.bind_some]
          split_ifs with hinner
          · have hnext : large.enter large.root (names ++ [n]) =
                some (small.target f) := by
              refine enter_concat_eq_some.2 ⟨x, f, hnames, hf, ?_, ?_⟩
              · rw [h.inner]
                exact hinner
              · rw [h.target]
            exact ih hnext (by simpa using hpast)
          · rfl

/-- Names that do not pass through the added item lead to the same place. -/
theorem Adds.follow_eq
    (h : small.Adds large d e) (htree : large.Tree) (hunique : large.Unique)
    (hfront : large.enter large.root front = some d)
    (hpast : ¬(front ++ [small.name e]) <+: names) :
    large.follow large.root names = small.follow small.root names := by
  rcases List.eq_nil_or_concat names with rfl | ⟨rest, n, rfl⟩
  · rfl
  rw [List.concat_eq_append] at hpast ⊢
  have hshort : ¬(front ++ [small.name e]) <+: [] ++ rest := by
    intro hstart
    exact hpast (hstart.trans (List.prefix_append _ _))
  have hstart : large.enter large.root [] = some large.root := rfl
  have henter := h.enter_eq htree hunique hfront hstart hshort
  rw [follow_concat, follow_concat, ← h.root, ← henter]
  cases hx : large.enter large.root rest with
  | none => rfl
  | some x =>
      simp only [Option.bind_some]
      rw [h.find_along htree hunique hfront hx hpast]

/-- Nothing is found at its path in the smaller forest. -/
theorem Adds.follow_small
    (h : small.Adds large d e) (hunique : large.Unique)
    (hfront : small.enter small.root front = some d) :
    small.follow small.root (front ++ [small.name e]) = none := by
  rw [follow_concat, hfront]
  simp [h.find_small hunique]

end

end Forest

end ClOs
