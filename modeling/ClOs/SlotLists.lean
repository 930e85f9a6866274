import Mathlib.Data.List.TakeWhile
import Mathlib.Tactic

/-!
# Lists of slots

A table of records keeps its slots in a row.  A slot may have been given up, and
an end marker closes the row: the slots behind it are blank.  A new record takes
the first slot that is given up or an end marker, or is put behind a row that
has neither.
-/

namespace ClOs

variable {Slot : Type} (isEnd isGone : Slot → Bool)

/-- The records in front of the end marker that have not been given up. -/
def liveSlots (slots : List Slot) : List Slot :=
  (slots.takeWhile (fun e => !isEnd e)).filter (fun e => !isGone e)

def ClosedBy (blank : Slot) (slots : List Slot) : Prop :=
  ∀ e ∈ (slots.dropWhile (fun e => !isEnd e)).tail, e = blank

section

variable {isEnd isGone : Slot → Bool} {blank old new e : Slot}
  {slots before after : List Slot}

theorem takeWhile_append_of_not_end
    (hbefore : ∀ e ∈ before, isEnd e = false) :
    (before ++ after).takeWhile (fun e => !isEnd e) =
      before ++ after.takeWhile (fun e => !isEnd e) :=
  List.takeWhile_append_of_pos fun e he => by simp [hbefore e he]

theorem dropWhile_append_of_not_end
    (hbefore : ∀ e ∈ before, isEnd e = false) :
    (before ++ after).dropWhile (fun e => !isEnd e) =
      after.dropWhile (fun e => !isEnd e) :=
  List.dropWhile_append_of_pos fun e he => by simp [hbefore e he]

theorem liveSlots_append
    (hbefore : ∀ e ∈ before, isEnd e = false) :
    liveSlots isEnd isGone (before ++ after) =
      liveSlots isEnd isGone before ++ liveSlots isEnd isGone after := by
  have hall : before.takeWhile (fun e => !isEnd e) = before :=
    List.takeWhile_eq_self_iff.2 fun e he => by simp [hbefore e he]
  unfold liveSlots
  rw [takeWhile_append_of_not_end hbefore, List.filter_append, hall]

theorem liveSlots_cons_of_end (hend : isEnd e = true) :
    liveSlots isEnd isGone (e :: after) = [] := by
  unfold liveSlots
  rw [List.takeWhile_cons_of_neg (by simp [hend])]
  rfl

theorem liveSlots_cons_of_gone
    (hend : isEnd e = false) (hgone : isGone e = true) :
    liveSlots isEnd isGone (e :: after) = liveSlots isEnd isGone after := by
  unfold liveSlots
  rw [List.takeWhile_cons_of_pos (by simp [hend]),
    List.filter_cons_of_neg (by simp [hgone])]

theorem liveSlots_cons_of_live
    (hend : isEnd e = false) (hgone : isGone e = false) :
    liveSlots isEnd isGone (e :: after) =
      e :: liveSlots isEnd isGone after := by
  unfold liveSlots
  rw [List.takeWhile_cons_of_pos (by simp [hend]),
    List.filter_cons_of_pos (by simp [hgone])]

/-- A row of records without a gap. -/
theorem liveSlots_eq_self
    (hlive : ∀ e ∈ slots, isEnd e = false ∧ isGone e = false) :
    liveSlots isEnd isGone slots = slots := by
  unfold liveSlots
  rw [List.takeWhile_eq_self_iff.2 fun e he => by simp [(hlive e he).1],
    List.filter_eq_self.2 fun e he => by simp [(hlive e he).2]]

theorem liveSlots_of_blank
    (hblank : isEnd blank = true) (hall : ∀ e ∈ slots, e = blank) :
    liveSlots isEnd isGone slots = [] := by
  cases slots with
  | nil => rfl
  | cons e rest =>
      rw [hall e List.mem_cons_self]
      exact liveSlots_cons_of_end hblank

theorem mem_liveSlots
    (he : e ∈ liveSlots isEnd isGone slots) :
    e ∈ slots ∧ isEnd e = false ∧ isGone e = false := by
  unfold liveSlots at he
  obtain ⟨htaken, hgone⟩ := List.mem_filter.1 he
  refine ⟨(List.takeWhile_prefix _).subset htaken, ?_, by simpa using hgone⟩
  simpa using List.mem_takeWhile_imp htaken

theorem ClosedBy.append_iff
    (hbefore : ∀ e ∈ before, isEnd e = false) :
    ClosedBy isEnd blank (before ++ after) ↔ ClosedBy isEnd blank after := by
  unfold ClosedBy
  rw [dropWhile_append_of_not_end hbefore]

theorem ClosedBy.cons_of_not_end (hend : isEnd e = false) :
    ClosedBy isEnd blank (e :: after) ↔ ClosedBy isEnd blank after := by
  unfold ClosedBy
  rw [List.dropWhile_cons_of_pos (by simp [hend])]

theorem ClosedBy.cons_of_end (hend : isEnd e = true) :
    ClosedBy isEnd blank (e :: after) ↔ ∀ f ∈ after, f = blank := by
  unfold ClosedBy
  rw [List.dropWhile_cons_of_neg (by simp [hend]), List.tail_cons]

theorem closedBy_of_blank (hall : ∀ e ∈ slots, e = blank) :
    ClosedBy isEnd blank slots := by
  intro e he
  exact hall e ((List.dropWhile_suffix _).subset (List.mem_of_mem_tail he))

/-! ## Changing a slot -/

/-- A record put into a slot that is given up or marks the end. -/
theorem ClosedBy.insert
    (hclosed : ClosedBy isEnd blank (before ++ old :: after))
    (hblank : isEnd blank = true)
    (hbefore : ∀ e ∈ before, isEnd e = false ∧ isGone e = false)
    (hold : isEnd old = true ∨ isGone old = true) (hnew : isEnd new = false) :
    ClosedBy isEnd blank (before ++ new :: after) ∧
      liveSlots isEnd isGone (before ++ old :: after) =
        before ++ liveSlots isEnd isGone after ∧
      liveSlots isEnd isGone (before ++ new :: after) =
        before ++ liveSlots isEnd isGone (new :: after) := by
  have hopen : ∀ e ∈ before, isEnd e = false := fun e he => (hbefore e he).1
  rw [ClosedBy.append_iff hopen] at hclosed
  rw [ClosedBy.append_iff hopen, liveSlots_append hopen, liveSlots_append hopen,
    liveSlots_eq_self hbefore, ClosedBy.cons_of_not_end hnew]
  by_cases hend : isEnd old = true
  · rw [ClosedBy.cons_of_end hend] at hclosed
    refine ⟨closedBy_of_blank hclosed, ?_, rfl⟩
    rw [liveSlots_cons_of_end hend, liveSlots_of_blank hblank hclosed]
  · rw [Bool.not_eq_true] at hend
    rw [ClosedBy.cons_of_not_end hend] at hclosed
    refine ⟨hclosed, ?_, rfl⟩
    rw [liveSlots_cons_of_gone hend (hold.resolve_left (by simp [hend]))]

/-- A record put behind a row without a gap. -/
theorem closedBy_extend
    (hblank : isEnd blank = true)
    (hlive : ∀ e ∈ slots, isEnd e = false ∧ isGone e = false)
    (hnew : isEnd new = false) (hafter : ∀ e ∈ after, e = blank) :
    ClosedBy isEnd blank (slots ++ new :: after) ∧
      liveSlots isEnd isGone slots = slots ∧
      liveSlots isEnd isGone (slots ++ new :: after) =
        slots ++ liveSlots isEnd isGone [new] := by
  have hopen : ∀ e ∈ slots, isEnd e = false := fun e he => (hlive e he).1
  have hone : ∀ e ∈ [new], isEnd e = false := by simpa using hnew
  rw [ClosedBy.append_iff hopen, liveSlots_append hopen,
    ClosedBy.cons_of_not_end hnew, liveSlots_eq_self hlive]
  refine ⟨closedBy_of_blank hafter, rfl, ?_⟩
  rw [← List.singleton_append, liveSlots_append hone,
    liveSlots_of_blank hblank hafter, List.append_nil]

/-- A record that is given up. -/
theorem ClosedBy.giveUp
    (hclosed : ClosedBy isEnd blank (before ++ old :: after))
    (hbefore : ∀ e ∈ before, isEnd e = false)
    (hold : isEnd old = false ∧ isGone old = false)
    (hnew : isEnd new = false ∧ isGone new = true) :
    ClosedBy isEnd blank (before ++ new :: after) ∧
      liveSlots isEnd isGone (before ++ old :: after) =
        liveSlots isEnd isGone before ++
          old :: liveSlots isEnd isGone after ∧
      liveSlots isEnd isGone (before ++ new :: after) =
        liveSlots isEnd isGone before ++ liveSlots isEnd isGone after := by
  rw [ClosedBy.append_iff hbefore, ClosedBy.cons_of_not_end hold.1] at hclosed
  rw [ClosedBy.append_iff hbefore, ClosedBy.cons_of_not_end hnew.1,
    liveSlots_append hbefore, liveSlots_append hbefore,
    liveSlots_cons_of_live hold.1 hold.2,
    liveSlots_cons_of_gone hnew.1 hnew.2]
  exact ⟨hclosed, rfl, rfl⟩

/-! ## Searching -/

/-- A search that stops at the end marker and passes over what is given up
searches the live records. -/
theorem find?_liveSlots
    (isEnd isGone accept : Slot → Bool) (slots : List Slot) :
    (liveSlots isEnd isGone slots).find? accept =
      (slots.find? (fun e => isEnd e || (!isGone e && accept e))).filter
        (fun e => !isEnd e) := by
  induction slots with
  | nil => rfl
  | cons e rest ih =>
      by_cases hend : isEnd e = true
      · rw [liveSlots_cons_of_end hend, List.find?_cons_of_pos (by simp [hend]),
          Option.filter_some, if_neg (by simp [hend])]
        rfl
      · rw [Bool.not_eq_true] at hend
        by_cases hgone : isGone e = true
        · rw [liveSlots_cons_of_gone hend hgone, ih,
            List.find?_cons_of_neg (by simp [hend, hgone])]
        · rw [Bool.not_eq_true] at hgone
          rw [liveSlots_cons_of_live hend hgone]
          by_cases haccept : accept e = true
          · rw [List.find?_cons_of_pos haccept,
              List.find?_cons_of_pos (by simp [hgone, haccept]),
              Option.filter_some, if_pos (by simp [hend])]
          · rw [List.find?_cons_of_neg haccept, ih,
              List.find?_cons_of_neg (by simp [hend, haccept])]

theorem exists_first_end (slots : List Slot) :
    (∀ e ∈ slots, isEnd e = false) ∨
      ∃ front g rest, slots = front ++ g :: rest ∧ isEnd g = true ∧
        ∀ x ∈ front, isEnd x = false := by
  cases hfind : slots.find? isEnd with
  | none =>
      refine .inl fun e he => ?_
      simpa using List.find?_eq_none.1 hfind e he
  | some g =>
      obtain ⟨hg, front, rest, hsplit, hfront⟩ :=
        List.find?_eq_some_iff_append.1 hfind
      exact .inr ⟨front, g, rest, hsplit, hg, fun x hx => by
        simpa using hfront x hx⟩

/-- No end marker stands in front of a record. -/
theorem ClosedBy.open_before
    (hclosed : ClosedBy isEnd blank (before ++ e :: after))
    (hblank : isEnd blank = true) (hend : isEnd e = false) :
    ∀ f ∈ before, isEnd f = false := by
  intro f hf
  by_contra hmarker
  rw [Bool.not_eq_false] at hmarker
  obtain hopen | ⟨front, g, rest, rfl, hg, hfront⟩ :=
    @exists_first_end Slot isEnd before
  · rw [hopen f hf] at hmarker
    cases hmarker
  rw [List.append_assoc, ClosedBy.append_iff hfront, List.cons_append,
    ClosedBy.cons_of_end hg] at hclosed
  have hsame := hclosed e (List.mem_append_right _ List.mem_cons_self)
  rw [hsame, hblank] at hend
  cases hend

/-- Stopping at an end marker only within one row makes no difference in a
table that is closed. -/
theorem ClosedBy.findSome?_rows
    {Row : Type} {rows : List Row} {slotsOf : Row → List Slot}
    (hblank : isEnd blank = true)
    (hclosed : ClosedBy isEnd blank (rows.flatMap slotsOf))
    (accept : Slot → Bool) :
    (rows.findSome? fun row =>
      ((slotsOf row).find? (fun e => isEnd e || accept e)).filter
        (fun e => !isEnd e)) =
      ((rows.flatMap slotsOf).find? (fun e => isEnd e || accept e)).filter
        (fun e => !isEnd e) := by
  induction rows with
  | nil => rfl
  | cons row rest ih =>
      rw [List.flatMap_cons] at hclosed ⊢
      rw [List.findSome?_cons, List.find?_append]
      cases hfind : (slotsOf row).find? (fun e => isEnd e || accept e) with
      | none =>
          have hopen : ∀ e ∈ slotsOf row, isEnd e = false := by
            intro e he
            have hpass := List.find?_eq_none.1 hfind e he
            simp only [Bool.or_eq_true, not_or, Bool.not_eq_true] at hpass
            exact hpass.1
          rw [ClosedBy.append_iff hopen] at hclosed
          exact ih hclosed
      | some e =>
          obtain ⟨-, before, after, hsplit, hbefore⟩ :=
            List.find?_eq_some_iff_append.1 hfind
          by_cases hend : isEnd e = true
          · have hopen : ∀ f ∈ before, isEnd f = false := by
              intro f hf
              have hpass := hbefore f hf
              simp only [Bool.not_eq_true', Bool.or_eq_false_iff] at hpass
              exact hpass.1
            rw [hsplit, List.append_assoc, ClosedBy.append_iff hopen,
              List.cons_append, ClosedBy.cons_of_end hend] at hclosed
            have hnone : (some e).filter (fun e => !isEnd e) = none := by
              rw [Option.filter_some, if_neg (by simp [hend])]
            rw [Option.some_or, hnone]
            rw [List.findSome?_eq_none_iff]
            intro other hother
            cases hsecond : (slotsOf other).find?
                (fun e => isEnd e || accept e) with
            | none => rfl
            | some f =>
                have hf := hclosed f (List.mem_append_right _
                  (List.mem_flatMap.2 ⟨other, hother,
                    List.mem_of_find?_eq_some hsecond⟩))
                rw [hf, Option.filter_some, if_neg (by simp [hblank])]
          · rw [Bool.not_eq_true] at hend
            rw [Option.some_or, Option.filter_some,
              if_pos (by simp [hend])]

theorem ClosedBy.liveSlots_rows
    {Row : Type} {rows : List Row} {slotsOf : Row → List Slot}
    (hblank : isEnd blank = true)
    (hclosed : ClosedBy isEnd blank (rows.flatMap slotsOf)) :
    liveSlots isEnd isGone (rows.flatMap slotsOf) =
      rows.flatMap fun row => liveSlots isEnd isGone (slotsOf row) := by
  induction rows with
  | nil => rfl
  | cons row rest ih =>
      rw [List.flatMap_cons] at hclosed ⊢
      rw [List.flatMap_cons]
      obtain hopen | ⟨front, g, back, hsplit, hg, hfront⟩ :=
        @exists_first_end Slot isEnd (slotsOf row)
      · rw [ClosedBy.append_iff hopen] at hclosed
        rw [liveSlots_append hopen, ih hclosed]
      · rw [hsplit, List.append_assoc, List.cons_append,
          ClosedBy.append_iff hfront, ClosedBy.cons_of_end hg] at hclosed
        have hnone : (rest.flatMap fun row =>
            liveSlots isEnd isGone (slotsOf row)) = [] := by
          rw [List.flatMap_eq_nil_iff]
          intro other hother
          refine liveSlots_of_blank hblank fun f hf => hclosed f ?_
          exact List.mem_append_right _ (List.mem_flatMap.2 ⟨other, hother, hf⟩)
        rw [hnone, List.append_nil, hsplit, List.append_assoc,
          List.cons_append, liveSlots_append hfront, liveSlots_append hfront,
          liveSlots_cons_of_end hg, liveSlots_cons_of_end hg]

end

end ClOs
