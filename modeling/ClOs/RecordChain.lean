import Mathlib.Logic.Relation
import Mathlib.Tactic

/-!
# Chains of records

Records of varying length stand one behind another: `step o` is the length of
the record at `o`, and a record that is not live ends the chain, as does the
end of the area.
-/

namespace ClOs

inductive RecordChain (live : ℕ → Bool) (step : ℕ → ℕ) (size : ℕ) :
    ℕ → List ℕ → ℕ → Prop
  | stop {o : ℕ} (h : size ≤ o ∨ live o = false) :
      RecordChain live step size o [] o
  | cons {o last : ℕ} {rest : List ℕ}
      (hinside : o < size)
      (hlive : live o = true)
      (hstep : 0 < step o)
      (hrest : RecordChain live step size (o + step o) rest last) :
      RecordChain live step size o (o :: rest) last

/-- Compute a chain, if `fuel` suffices for it. -/
def recordsFrom (live : ℕ → Bool) (step : ℕ → ℕ) (size : ℕ) :
    ℕ → ℕ → Option (List ℕ × ℕ)
  | 0, _ => none
  | fuel + 1, o =>
      if size ≤ o ∨ live o = false then some ([], o)
      else if step o = 0 then none
      else
        (recordsFrom live step size fuel (o + step o)).map
          (fun found => (o :: found.1, found.2))

theorem recordChain_of_recordsFrom
    {live : ℕ → Bool} {step : ℕ → ℕ} {size o last : ℕ}
    {offsets : List ℕ} (fuel : ℕ)
    (h : recordsFrom live step size fuel o = some (offsets, last)) :
    RecordChain live step size o offsets last := by
  induction fuel generalizing o offsets with
  | zero => simp [recordsFrom] at h
  | succ fuel ih =>
      rw [recordsFrom] at h
      split_ifs at h with hstop hstep
      · simp only [Option.some.injEq, Prod.mk.injEq] at h
        obtain ⟨rfl, rfl⟩ := h
        exact .stop hstop
      · simp only [not_or, Bool.not_eq_false] at hstop
        cases hrest : recordsFrom live step size fuel (o + step o) with
        | none => simp [hrest] at h
        | some found =>
            simp only [hrest, Option.map_some, Option.some.injEq,
              Prod.mk.injEq] at h
            obtain ⟨rfl, rfl⟩ := h
            exact .cons (by omega) hstop.2 (by omega) (ih hrest)

namespace RecordChain

variable {live live' : ℕ → Bool} {step step' : ℕ → ℕ}
  {size size' start last : ℕ} {offsets : List ℕ}

theorem start_le (h : RecordChain live step size start offsets last) :
    start ≤ last := by
  induction h with
  | stop _ => exact le_rfl
  | cons _ _ _ _ ih => omega

theorem mem_bounds
    (h : RecordChain live step size start offsets last) {o : ℕ}
    (ho : o ∈ offsets) :
    start ≤ o ∧ o < size ∧ live o = true ∧ 0 < step o ∧
      o + step o ≤ last := by
  induction h with
  | stop _ => simp at ho
  | @cons first last rest hinside hlive hstep hrest ih =>
      rcases List.mem_cons.1 ho with rfl | hmem
      · exact ⟨le_rfl, hinside, hlive, hstep, hrest.start_le⟩
      · obtain ⟨hfrom, hrest'⟩ := ih hmem
        exact ⟨by omega, hrest'⟩

theorem suffix {front back : List ℕ} {o : ℕ}
    (h : RecordChain live step size start (front ++ o :: back) last) :
    RecordChain live step size (o + step o) back last := by
  induction front generalizing start with
  | nil =>
      cases h with
      | cons _ _ _ hrest => exact hrest
  | cons first rest ih =>
      cases h with
      | cons _ _ _ hrest => exact ih hrest

theorem reaches (h : RecordChain live step size start offsets last) {o : ℕ}
    (ho : o ∈ offsets) :
    Relation.ReflTransGen
      (fun o next => o < size ∧ live o = true ∧ next = o + step o) start o := by
  induction h with
  | stop _ => simp at ho
  | cons hinside hlive _ _ ih =>
      rcases List.mem_cons.1 ho with rfl | hmem
      · exact .refl
      · exact (ih hmem).head ⟨hinside, hlive, rfl⟩

theorem mem_of_reaches
    (h : RecordChain live step size start offsets last) {o : ℕ}
    (hreach : Relation.ReflTransGen
      (fun o next => o < size ∧ live o = true ∧ next = o + step o) start o)
    (hinside : o < size)
    (hlive : live o = true) : o ∈ offsets := by
  induction h with
  | stop hstop =>
      rcases hreach.cases_head with rfl | ⟨next, ⟨hfirst, hstart, -⟩, -⟩
      · rcases hstop with hend | hdead
        · omega
        · rw [hlive] at hdead
          cases hdead
      · rcases hstop with hend | hdead
        · omega
        · rw [hstart] at hdead
          cases hdead
  | cons _ _ _ _ ih =>
      rcases hreach.cases_head with rfl | ⟨next, ⟨-, -, rfl⟩, hrest⟩
      · simp
      · exact List.mem_cons_of_mem _ (ih hrest)

/-- Records of positive length make up a chain. -/
theorem exists_chain
    (hstep : ∀ o, Relation.ReflTransGen
        (fun o next => o < size ∧ live o = true ∧ next = o + step o) start o →
      o < size → live o = true → 0 < step o) :
    ∃ offsets last, RecordChain live step size start offsets last := by
  induction hrank : size - start using Nat.strong_induction_on
    generalizing start with
  | _ rank ih =>
      subst hrank
      by_cases hend : size ≤ start ∨ live start = false
      · exact ⟨[], start, .stop hend⟩
      simp only [not_or, Bool.not_eq_false] at hend
      have hinside : start < size := by omega
      have hpos := hstep start .refl hinside hend.2
      obtain ⟨offsets, last, hrest⟩ := ih (size - (start + step start))
        (by omega)
        (fun o hreach => hstep o (hreach.head ⟨hinside, hend.2, rfl⟩)) rfl
      exact ⟨start :: offsets, last, .cons hinside hend.2 hpos hrest⟩

/-- A record ends before the later ones begin. -/
theorem pairwise (h : RecordChain live step size start offsets last) :
    offsets.Pairwise (fun o o' => o + step o ≤ o') := by
  induction h with
  | stop _ => exact List.Pairwise.nil
  | cons _ _ _ hrest ih =>
      exact List.Pairwise.cons
        (fun o' ho' => (hrest.mem_bounds ho').1) ih

theorem length_le (h : RecordChain live step size start offsets last) :
    offsets.length ≤ size - start := by
  induction h with
  | stop _ => simp
  | cons hinside _ hstep hrest ih =>
      simp only [List.length_cons]
      omega

/-- Two chains from the same offset are the same. -/
theorem unique {offsets' : List ℕ} {last' : ℕ}
    (h : RecordChain live step size start offsets last)
    (h' : RecordChain live step size start offsets' last') :
    offsets = offsets' ∧ last = last' := by
  induction h generalizing offsets' last' with
  | stop hstop =>
      cases h' with
      | stop _ => exact ⟨rfl, rfl⟩
      | cons hinside hlive _ _ =>
          rcases hstop with hend | hdead
          · omega
          · rw [hlive] at hdead
            cases hdead
  | cons hinside hlive _ _ ih =>
      cases h' with
      | stop hstop =>
          rcases hstop with hend | hdead
          · omega
          · rw [hlive] at hdead
            cases hdead
      | cons _ _ _ hrest' =>
          obtain ⟨rfl, rfl⟩ := ih hrest'
          exact ⟨rfl, rfl⟩

theorem cut {front back : List ℕ} {o : ℕ}
    (h : RecordChain live step size start (front ++ o :: back) last)
    (hlive : ∀ i ∈ front, live' i = live i)
    (hstep : ∀ i ∈ front, step' i = step i)
    (hdead : live' o = false) :
    RecordChain live' step' size start front o := by
  induction front generalizing start with
  | nil =>
      cases h with
      | cons _ _ _ _ => exact .stop (.inr hdead)
  | cons first rest ih =>
      cases h with
      | cons hinside hfirst hpos hrest =>
          refine .cons hinside ?_ ?_ ?_
          · rw [hlive _ (by simp), hfirst]
          · rwa [hstep _ (by simp)]
          · rw [hstep _ (by simp)]
            exact ih hrest
              (fun i hi => hlive i (by simp [hi]))
              (fun i hi => hstep i (by simp [hi]))

/-- The chain after a new record has been put at its end. -/
theorem extend
    (h : RecordChain live step size start offsets last)
    (hsize : size ≤ size')
    (hlive : ∀ i ∈ offsets, live' i = live i)
    (hstep : ∀ i ∈ offsets, step' i = step i)
    (hinside : last < size')
    (hnew : live' last = true)
    (hpos : 0 < step' last)
    (hend : size' ≤ last + step' last ∨
      live' (last + step' last) = false) :
    RecordChain live' step' size' start (offsets ++ [last])
      (last + step' last) := by
  induction h with
  | stop _ => exact .cons hinside hnew hpos (.stop hend)
  | cons hfirst hfirstLive hfirstPos _ ih =>
      refine .cons (by omega) ?_ ?_ ?_
      · rw [hlive _ (by simp), hfirstLive]
      · rwa [hstep _ (by simp)]
      · rw [hstep _ (by simp)]
        exact ih (fun i hi => hlive i (by simp [hi]))
          (fun i hi => hstep i (by simp [hi])) hinside hnew hpos hend

end RecordChain

end ClOs
