import ClOs.Scheduling

/-!
# The selection loop

`schedule` with processes in any of the five states.  A walk that begins at a
process behind the head comes back to it.  The head is not on the way, so a walk
that begins there has nothing to come back to and ends only at a running process.
-/

namespace ClOs

namespace Scheduler

section

variable {s next : Scheduler} {nodes : List ℕ} {current : ℕ}

theorem ProcessList.head_notMem (h : ProcessList s nodes) :
    s.processHead ∉ nodes :=
  (List.nodup_cons.1 h.nodup).1

/-- A process behind the head is the last one in cyclic order from itself. -/
theorem following_self
    (hmem : current ∈ nodes) :
    ∃ front, following nodes current = front ++ [current] ∧
      front.length < nodes.length := by
  obtain ⟨front, back, rfl, hfront⟩ := List.eq_append_cons_of_mem hmem
  refine ⟨back ++ front, following_append hfront, ?_⟩
  simp only [List.length_append, List.length_cons]
  omega

/-- From a process behind the head the loop always stops. -/
theorem ProcessList.selectFrom_returns
    (h : ProcessList s nodes) (hmem : current ∈ nodes)
    (hidle : ∀ p ∈ nodes, s.isRunning p = false) :
    s.selectFrom current processFuel current = .ok current := by
  have hnodup := (List.nodup_cons.1 h.nodup).2
  obtain ⟨front, hsplit, hlength⟩ := following_self hmem
  have hskip : ∀ p ∈ front, s.isRunning p = false ∧ p ≠ current := by
    intro p hp
    have hnode : p ∈ nodes := by
      rw [← @mem_following nodes current, hsplit]
      exact List.mem_append_left _ hp
    refine ⟨hidle p hnode, ?_⟩
    rintro rfl
    exact notMem_of_following hnodup hsplit hp
  exact h.selectFrom (List.mem_cons_of_mem _ hmem) hsplit hskip (.inr rfl)
    (hlength.trans h.length_lt)

/-- A start that is not behind the head is never met again. -/
theorem ProcessList.selectFrom_endless
    (h : ProcessList s nodes) {start : ℕ} (fuel : ℕ)
    (hcurrent : current ∈ s.processHead :: nodes) (hnodes : nodes ≠ [])
    (hstart : start ∉ nodes) (hidle : ∀ p ∈ nodes, s.isRunning p = false) :
    s.selectFrom start fuel current = .error .endless := by
  induction fuel generalizing current with
  | zero => rfl
  | succ fuel ih =>
      obtain ⟨q, rest, hsplit⟩ :
          ∃ q rest, following nodes current = q :: rest := by
        have hlength := (following_isRotated nodes current).perm.length_eq
        refine List.exists_cons_of_ne_nil fun hempty => hnodes ?_
        rw [hempty] at hlength
        exact List.length_eq_zero_iff.1 hlength.symm
      have hq : q ∈ nodes := by
        rw [← @mem_following nodes current, hsplit]
        exact List.mem_cons_self
      have hmem : q ∈ s.processHead :: nodes := List.mem_cons_of_mem _ hq
      obtain ⟨process, hprocess⟩ := h.list.present hmem
      have hgoes : process.state ≠ .running ∧ q ≠ start := by
        refine ⟨?_, ?_⟩
        · intro hstate
          simpa [isRunning, hprocess, hstate] using hidle q hq
        · rintro rfl
          exact hstart hq
      simp only [Scheduler.selectFrom, h.advance hcurrent hsplit, bind,
        Except.bind, process_eq_ok.2 hprocess, if_pos hgoes,
        Bool.false_eq_true, if_false]
      exact ih hmem

theorem ProcessList.schedule_eq
    (h : ProcessList s nodes) (regs : Registers) :
    ∃ saved, SameList s saved ∧ ProcessList saved nodes ∧
      s.schedule regs = (saved.selectFrom s.currentProcessRunning processFuel
        s.currentProcessRunning >>= saved.switchTo) := by
  obtain ⟨running, hrunning⟩ := h.list.present h.current
  have hsame := saveRegisters_sameList regs hrunning
  refine ⟨s.saveRegisters running regs, hsame,
    hsame.processList h h.current, ?_⟩
  unfold Scheduler.schedule
  simp only [h.initialised, Bool.true_eq_false, if_false,
    process_eq_ok.2 hrunning, bind, Except.bind]

theorem ProcessList.schedule_endless
    (h : ProcessList s nodes) (regs : Registers)
    (hhead : s.currentProcessRunning = s.processHead) (hnodes : nodes ≠ [])
    (hidle : ∀ p ∈ nodes, s.isRunning p = false) :
    s.schedule regs = .error .endless := by
  obtain ⟨saved, hsame, hsaved, hschedule⟩ := h.schedule_eq regs
  have hcurrent : s.currentProcessRunning ∈ saved.processHead :: nodes := by
    rw [hsame.head]
    exact h.current
  have hstart : s.currentProcessRunning ∉ nodes := by
    rw [hhead]
    exact h.head_notMem
  have hselect := hsaved.selectFrom_endless processFuel hcurrent hnodes hstart
    (by rwa [hsame.isRunning])
  rw [hschedule, hselect]
  rfl

/-- From a process behind the head, with none of them running, `schedule` keeps
the interrupted process. -/
theorem ProcessList.schedule_keeps
    (h : ProcessList s nodes) (regs : Registers)
    (hmem : s.currentProcessRunning ∈ nodes)
    (hidle : ∀ p ∈ nodes, s.isRunning p = false) :
    ∃ next, s.schedule regs = .ok (none, next) ∧
      next.currentProcessRunning = s.currentProcessRunning := by
  obtain ⟨saved, hsame, hsaved, hschedule⟩ := h.schedule_eq regs
  have hselect := hsaved.selectFrom_returns hmem (by rwa [hsame.isRunning])
  obtain ⟨process, hprocess⟩ :=
    hsaved.list.present (List.mem_cons_of_mem _ hmem)
  have hstate : process.state ≠ .running := by
    intro hrunning
    have hfalse := hidle _ hmem
    rw [← hsame.isRunning] at hfalse
    simp [isRunning, hprocess, hrunning] at hfalse
  refine ⟨{ saved with
    currentProcessRunning := s.currentProcessRunning }, ?_, rfl⟩
  rw [hschedule, hselect]
  simp only [bind, Except.bind, switchTo, process_eq_ok.2 hprocess,
    if_neg hstate]
  rfl

/-- `schedule` ends, and where no process is running it returns the interrupted
frame and stays at the current process. -/
def Selects (s : Scheduler) (nodes : List ℕ) (regs : Registers) : Prop :=
  ∃ result next, s.schedule regs = .ok (result, next) ∧
    ((∀ p ∈ s.processHead :: nodes, s.isRunning p = false) →
      result = none ∧ next.currentProcessRunning = s.currentProcessRunning)

theorem ProcessList.selects_empty
    (h : ProcessList s []) (regs : Registers) : Selects s [] regs := by
  obtain ⟨result, next, hschedule⟩ := h.schedule_empty regs
  have hticks := schedule_ticks h.initialised hschedule
  have hnext := h.tick hticks
  have hcurrent : s.currentProcessRunning = s.processHead := by
    simpa using h.current
  have hkept : next.currentProcessRunning = s.currentProcessRunning := by
    rw [hcurrent, ← hticks.list.head]
    simpa using hnext.current
  refine ⟨result, next, hschedule, fun hidle => ⟨?_, hkept⟩⟩
  cases result with
  | none => rfl
  | some q =>
      obtain ⟨rfl, process, hprocess, hstate, -⟩ := hticks.resumed q rfl
      have hfalse := hidle _ h.current
      rw [← hkept, ← hticks.list.isRunning] at hfalse
      simp [isRunning, hprocess, hstate] at hfalse

/-- The loop of `schedule` does what it should unless it starts at the head of a
list in which no process behind the head is running. -/
theorem selects_iff
    (h : ProcessList s nodes) (regs : Registers) :
    Selects s nodes regs ↔
      (s.currentProcessRunning = s.processHead →
        nodes = [] ∨ ∃ p ∈ nodes, s.isRunning p = true) := by
  by_cases hrunning : ∃ p ∈ nodes, s.isRunning p = true
  · obtain ⟨q, next, hschedule, -⟩ := h.schedule regs hrunning
    refine ⟨fun _ _ => .inr hrunning, fun _ => ⟨some q, next, hschedule, ?_⟩⟩
    intro hidle
    obtain ⟨p, hp, hprunning⟩ := hrunning
    rw [hidle p (List.mem_cons_of_mem _ hp)] at hprunning
    cases hprunning
  · have hidle : ∀ p ∈ nodes, s.isRunning p = false := by
      intro p hp
      by_contra hne
      exact hrunning ⟨p, hp, by simpa using hne⟩
    constructor
    · rintro ⟨result, next, hschedule, -⟩ hhead
      refine .inl ?_
      by_contra hnodes
      rw [h.schedule_endless regs hhead hnodes hidle] at hschedule
      cases hschedule
    · intro hcondition
      rcases List.mem_cons.1 h.current with hhead | hmem
      · rcases hcondition hhead with rfl | hsome
        · exact h.selects_empty regs
        · exact absurd hsome hrunning
      · obtain ⟨next, hschedule, hcurrent⟩ :=
          h.schedule_keeps regs hmem hidle
        exact ⟨none, next, hschedule, fun _ => ⟨rfl, hcurrent⟩⟩

def blockedProcess : Scheduler where
  isInitProcess := true
  processHead := 0xD0000020
  currentProcessRunning := 0xD0000020
  processes p :=
    if p = 0xD0000020 then
      some ⟨0, .idle, 0, none, 0, .zero, some 0xD0000100, none⟩
    else if p = 0xD0000100 then
      some ⟨1, .blocked, 0xC0201000, some 0xD0000400, 0x8048000,
        initialRegisters 0x8048000, none, some 0xD0000020⟩
    else none
  cr3 := 0x101000
  vfsFdTable := some 0xD0000000

theorem blockedProcess_list : ProcessList blockedProcess [0xD0000100] where
  initialised := rfl
  list := ⟨_, rfl, rfl, _, rfl, rfl⟩
  nodup := by decide
  bounded := by decide
  current := by decide

theorem blockedProcess_not_selects :
    ¬ Selects blockedProcess [0xD0000100] .zero := by
  rintro ⟨result, next, hschedule, -⟩
  rw [blockedProcess_list.schedule_endless .zero rfl (by decide)
    (by decide)] at hschedule
  cases hschedule

/-- With the blocked process current, the tick returns to it. -/
theorem selects_blockedProcess :
    Selects { blockedProcess with currentProcessRunning := 0xD0000100 }
      [0xD0000100] .zero := by
  have hlist : ProcessList
      { blockedProcess with currentProcessRunning := 0xD0000100 }
      [0xD0000100] :=
    ⟨rfl, ⟨_, rfl, rfl, _, rfl, rfl⟩, by decide, by decide, by decide⟩
  exact (selects_iff hlist .zero).2 (fun hhead => absurd hhead (by decide))

end

end Scheduler

end ClOs
