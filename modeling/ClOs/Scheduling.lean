import ClOs.Processes

/-!
# Scheduling

`schedule` goes on to the first running process behind the current one in
cyclic order.  Over whole runs every process is resumed with the registers that
were saved when it was last preempted.
-/

namespace ClOs

namespace Scheduler

/-! ## The list -/

section

variable {s next : Scheduler} {nodes : List ℕ} {current : ℕ}

theorem process_eq_ok {address : ℕ} {process : Process} :
    s.process address = .ok process ↔
      s.processes address = some process := by
  unfold Scheduler.process
  cases s.processes address <;> simp

theorem ListFrom.head
    {address : ℕ} (h : s.ListFrom address nodes) :
    ∃ process, s.processes address = some process ∧
      process.next = nodes.head? := by
  cases nodes with
  | nil => exact h
  | cons node rest =>
      obtain ⟨process, hprocess, hnext, -⟩ := h
      exact ⟨process, hprocess, hnext⟩

theorem ListFrom.behind
    {address node : ℕ} {front back : List ℕ}
    (h : s.ListFrom address (front ++ node :: back)) :
    s.ListFrom node back := by
  induction front generalizing address with
  | nil => exact h.choose_spec.2.2
  | cons first front ih => exact ih h.choose_spec.2.2

theorem ListFrom.present
    {head : ℕ} (h : s.ListFrom head nodes) {p : ℕ} (hp : p ∈ head :: nodes) :
    ∃ process, s.processes p = some process := by
  rcases List.mem_cons.1 hp with rfl | hmem
  · obtain ⟨process, hprocess, -⟩ := h.head
    exact ⟨process, hprocess⟩
  · obtain ⟨front, back, rfl⟩ := List.append_of_mem hmem
    obtain ⟨process, hprocess, -⟩ := h.behind.head
    exact ⟨process, hprocess⟩

theorem ProcessList.behind
    (h : ProcessList s nodes) (hcurrent : current ∈ s.processHead :: nodes) :
    ∃ back, s.ListFrom current back ∧
      (following nodes current).head? = (back.head?).or nodes.head? := by
  obtain ⟨hhead, hnodup⟩ := List.nodup_cons.1 h.nodup
  rcases List.mem_cons.1 hcurrent with rfl | hmem
  · refine ⟨nodes, h.list, ?_⟩
    rw [following_of_notMem hhead]
    simp
  · obtain ⟨front, back, rfl, hfront⟩ := List.eq_append_cons_of_mem hmem
    refine ⟨back, h.list.behind, ?_⟩
    rw [following_append hfront]
    cases back with
    | nil => cases front <;> simp
    | cons node back => simp

/-- The loop of `schedule` goes on to the next process in cyclic order. -/
theorem ProcessList.advance
    (h : ProcessList s nodes) (hcurrent : current ∈ s.processHead :: nodes)
    {q : ℕ} {rest : List ℕ} (hnext : following nodes current = q :: rest) :
    s.advance current = .ok (q, false) := by
  obtain ⟨back, hback, hfirst⟩ := h.behind hcurrent
  obtain ⟨process, hprocess, hprocessNext⟩ := hback.head
  obtain ⟨head, hhead, hheadNext⟩ := h.list.head
  rw [hnext, List.head?_cons] at hfirst
  unfold Scheduler.advance
  rw [process_eq_ok.2 hprocess]
  simp only [bind, Except.bind, hprocessNext]
  cases hcase : back.head? with
  | some node =>
      simp only [hcase, Option.some_or, Option.some.injEq] at hfirst
      rw [hfirst]
      rfl
  | none =>
      rw [hcase, Option.none_or] at hfirst
      simp only [process_eq_ok.2 hhead, hheadNext, ← hfirst]
      rfl

theorem ProcessList.advance_mem
    (h : ProcessList s nodes) (hcurrent : current ∈ s.processHead :: nodes)
    {result : ℕ × Bool} (hadvance : s.advance current = .ok result) :
    result.1 ∈ s.processHead :: nodes := by
  cases hnext : following nodes current with
  | cons q rest =>
      rw [h.advance hcurrent hnext, Except.ok.injEq] at hadvance
      rw [← hadvance]
      have hq : q ∈ following nodes current := by simp [hnext]
      exact List.mem_cons_of_mem _ (mem_following.1 hq)
  | nil =>
      obtain ⟨back, hback, hfirst⟩ := h.behind hcurrent
      obtain ⟨process, hprocess, hprocessNext⟩ := hback.head
      obtain ⟨head, hhead, hheadNext⟩ := h.list.head
      rw [hnext, List.head?_nil] at hfirst
      obtain ⟨hnone, hempty⟩ := Option.or_eq_none_iff.1 hfirst.symm
      unfold Scheduler.advance at hadvance
      rw [process_eq_ok.2 hprocess] at hadvance
      simp only [bind, Except.bind, hprocessNext, hnone,
        process_eq_ok.2 hhead, hheadNext, hempty, pure, Except.pure,
        Except.ok.injEq] at hadvance
      rw [← hadvance]
      exact List.mem_cons_self

theorem ProcessList.selectFrom_mem
    (h : ProcessList s nodes) {start fuel selected : ℕ}
    (hcurrent : current ∈ s.processHead :: nodes)
    (hselect : s.selectFrom start fuel current = .ok selected) :
    selected ∈ s.processHead :: nodes := by
  induction fuel generalizing current with
  | zero => simp [selectFrom] at hselect
  | succ fuel ih =>
      simp only [selectFrom] at hselect
      rw [Outcome.bind_eq_ok] at hselect
      obtain ⟨⟨node, left⟩, hadvance, hselect⟩ := hselect
      have hnode := h.advance_mem hcurrent hadvance
      simp only at hselect
      split_ifs at hselect with hleft
      · simp only [pure, Except.pure, Except.ok.injEq] at hselect
        rwa [← hselect]
      · rw [Outcome.bind_eq_ok] at hselect
        obtain ⟨process, -, hselect⟩ := hselect
        split_ifs at hselect
        · exact ih hnode hselect
        · simp only [pure, Except.pure, Except.ok.injEq] at hselect
          rwa [← hselect]

/-- The loop stops at the first process in cyclic order that is running or is
the one it started from. -/
theorem ProcessList.selectFrom
    (h : ProcessList s nodes) {start fuel q : ℕ} {front back : List ℕ}
    (hcurrent : current ∈ s.processHead :: nodes)
    (hsplit : following nodes current = front ++ q :: back)
    (hfront : ∀ p ∈ front, s.isRunning p = false ∧ p ≠ start)
    (hq : s.isRunning q = true ∨ q = start) (hfuel : front.length < fuel) :
    s.selectFrom start fuel current = .ok q := by
  have hnodup := (List.nodup_cons.1 h.nodup).2
  induction front generalizing current back fuel with
  | nil =>
      obtain ⟨fuel, rfl⟩ : ∃ n, fuel = n + 1 := ⟨fuel - 1, by omega⟩
      have hadvance := h.advance hcurrent hsplit
      obtain ⟨process, hprocess⟩ :=
        h.list.present (h.advance_mem hcurrent hadvance)
      have hstop : ¬(process.state ≠ .running ∧ q ≠ start) := by
        rintro ⟨hstate, hne⟩
        have hidle : s.isRunning q = false := by
          simpa [isRunning, hprocess] using hstate
        simp [hidle, hne] at hq
      simp only [Scheduler.selectFrom, hadvance, bind, Except.bind,
        process_eq_ok.2 hprocess, if_neg hstop]
      rfl
  | cons p front ih =>
      obtain ⟨fuel, rfl⟩ : ∃ n, fuel = n + 1 :=
        ⟨fuel - 1, by simp only [List.length_cons] at hfuel; omega⟩
      have hadvance := h.advance hcurrent hsplit
      have hp : p ∈ s.processHead :: nodes := h.advance_mem hcurrent hadvance
      obtain ⟨hidle, hstart⟩ := hfront p List.mem_cons_self
      have hrest : following nodes p = front ++ q :: (back ++ [p]) := by
        rw [following_next hnodup hsplit]
        simp
      obtain ⟨process, hprocess⟩ := h.list.present hp
      have hstate : process.state ≠ .running := by
        intro hrunning
        simp [isRunning, hprocess, hrunning] at hidle
      have hih := @ih p fuel (back ++ [p]) hp hrest
        (fun p' hp' => hfront p' (List.mem_cons_of_mem _ hp'))
        (by simpa using hfuel)
      simp only [Scheduler.selectFrom, hadvance, bind, Except.bind,
        process_eq_ok.2 hprocess, hstate, hstart, ne_eq, not_false_iff,
        and_self, if_true, Bool.false_eq_true, if_false]
      exact hih

end

/-! ## One tick -/

structure SameList (s t : Scheduler) : Prop where
  initialised : t.isInitProcess = s.isInitProcess
  head : t.processHead = s.processHead
  links : ∀ p, (t.processes p).map (fun q => (q.state, q.next)) =
    (s.processes p).map (fun q => (q.state, q.next))

section

variable {s t next : Scheduler} {nodes : List ℕ}

theorem SameList.find
    (h : SameList s t) {p : ℕ} {process : Process}
    (hprocess : s.processes p = some process) :
    ∃ process', t.processes p = some process' ∧
      process'.state = process.state ∧ process'.next = process.next := by
  have hlinks := h.links p
  rw [hprocess, Option.map_some, Option.map_eq_some_iff] at hlinks
  obtain ⟨process', hprocess', hfields⟩ := hlinks
  rw [Prod.mk.injEq] at hfields
  exact ⟨process', hprocess', hfields⟩

theorem SameList.listFrom
    (h : SameList s t) {address : ℕ} (hlist : s.ListFrom address nodes) :
    t.ListFrom address nodes := by
  induction nodes generalizing address with
  | nil =>
      obtain ⟨process, hprocess, hend⟩ := hlist
      obtain ⟨process', hprocess', -, hnext⟩ := h.find hprocess
      exact ⟨process', hprocess', hnext.trans hend⟩
  | cons node rest ih =>
      obtain ⟨process, hprocess, hnode, hrest⟩ := hlist
      obtain ⟨process', hprocess', -, hnext⟩ := h.find hprocess
      exact ⟨process', hprocess', hnext.trans hnode, ih hrest⟩

theorem SameList.isRunning (h : SameList s t) :
    t.isRunning = s.isRunning := by
  funext p
  have hlinks := h.links p
  unfold Scheduler.isRunning
  cases hs : s.processes p with
  | none =>
      rw [hs, Option.map_none, Option.map_eq_none_iff] at hlinks
      rw [hlinks]
  | some process =>
      obtain ⟨process', hprocess', hstate, -⟩ := h.find hs
      rw [hprocess', Option.any_some, Option.any_some, hstate]

theorem SameList.processList
    (h : SameList s t) (hlist : ProcessList s nodes)
    (hcurrent : t.currentProcessRunning ∈ s.processHead :: nodes) :
    ProcessList t nodes where
  initialised := h.initialised.trans hlist.initialised
  list := by
    rw [h.head]
    exact h.listFrom hlist.list
  nodup := by
    rw [h.head]
    exact hlist.nodup
  bounded := by
    rw [h.head]
    exact hlist.bounded
  current := by
    rw [h.head]
    exact hcurrent

theorem saveRegisters_sameList
    {running : Process} (regs : Registers)
    (hrunning : s.processes s.currentProcessRunning = some running) :
    SameList s (s.saveRegisters running regs) where
  initialised := rfl
  head := rfl
  links p := by
    unfold saveRegisters setProcess
    by_cases hp : p = s.currentProcessRunning
    · subst hp
      simp [hrunning]
    · simp [Function.update_of_ne hp]

/-- What a tick does: it saves the registers of the current process and goes on
to a process of the list, which is resumed if it is running. -/
structure Ticks (s : Scheduler) (regs : Registers) (result : Option ℕ)
    (next : Scheduler) : Prop where
  list : SameList s next
  saved : ∃ running, s.processes s.currentProcessRunning = some running ∧
    next.processes = Function.update s.processes s.currentProcessRunning
      (some { running with regs := regs })
  selected : ∃ fuel, (∃ running,
    s.processes s.currentProcessRunning = some running ∧
      (s.saveRegisters running regs).selectFrom s.currentProcessRunning fuel
        s.currentProcessRunning = .ok next.currentProcessRunning)
  resumed : ∀ q, result = some q → q = next.currentProcessRunning ∧
    ∃ process, next.processes q = some process ∧
      process.state = .running ∧
      next.cr3 = sub32 process.pageDir Memory.kernelStart ∧
      next.vfsFdTable = process.fdTable
  kept : result = none → next.isRunning next.currentProcessRunning = false

theorem switchTo_running
    {selected : ℕ} {process : Process}
    (hprocess : s.processes selected = some process)
    (hstate : process.state = .running) :
    s.switchTo selected = .ok (some selected, { s with
      currentProcessRunning := selected
      cr3 := sub32 process.pageDir Memory.kernelStart
      vfsFdTable := process.fdTable }) := by
  unfold switchTo
  simp only [process_eq_ok.2 hprocess, bind, Except.bind, hstate, if_true]
  rfl

theorem switchTo_ok
    {selected : ℕ} {result : Option ℕ}
    (h : s.switchTo selected = .ok (result, next)) :
    next.currentProcessRunning = selected ∧ next.processes = s.processes ∧
      next.processHead = s.processHead ∧
      next.isInitProcess = s.isInitProcess ∧
      ∃ process, s.processes selected = some process ∧
        ((process.state = .running ∧ result = some selected ∧
            next.cr3 = sub32 process.pageDir Memory.kernelStart ∧
            next.vfsFdTable = process.fdTable) ∨
          process.state ≠ .running ∧ result = none) := by
  unfold switchTo at h
  rw [Outcome.bind_eq_ok] at h
  obtain ⟨process, hprocess, h⟩ := h
  rw [process_eq_ok] at hprocess
  split_ifs at h with hstate
  · simp only [pure, Except.pure, Except.ok.injEq, Prod.mk.injEq] at h
    obtain ⟨rfl, rfl⟩ := h
    exact ⟨rfl, rfl, rfl, rfl, process, hprocess,
      .inl ⟨hstate, rfl, rfl, rfl⟩⟩
  · simp only [pure, Except.pure, Except.ok.injEq, Prod.mk.injEq] at h
    obtain ⟨rfl, rfl⟩ := h
    exact ⟨rfl, rfl, rfl, rfl, process, hprocess, .inr ⟨hstate, rfl⟩⟩

theorem schedule_ticks
    {regs : Registers} {result : Option ℕ}
    (hinit : s.isInitProcess = true)
    (h : s.schedule regs = .ok (result, next)) :
    Ticks s regs result next := by
  unfold schedule at h
  rw [if_neg (by simp [hinit]), Outcome.bind_eq_ok] at h
  obtain ⟨running, hrunning, h⟩ := h
  rw [process_eq_ok] at hrunning
  simp only at h
  rw [Outcome.bind_eq_ok] at h
  obtain ⟨selected, hselected, h⟩ := h
  have hsame := saveRegisters_sameList regs hrunning
  obtain ⟨hcurrent, hprocesses, hhead, hinitialised, process, hprocess,
    hcases⟩ := switchTo_ok h
  exact {
    list := {
      initialised := hinitialised
      head := hhead
      links := by
        intro p
        rw [hprocesses]
        exact hsame.links p }
    saved := ⟨running, hrunning, hprocesses⟩
    selected := ⟨_, running, hrunning, hcurrent ▸ hselected⟩
    resumed := by
      intro q hq
      rcases hcases with ⟨hstate, hresult, hcr3, htable⟩ | ⟨-, hresult⟩
      · rw [hresult, Option.some.injEq] at hq
        subst hq
        exact ⟨hcurrent.symm, process, by rw [hprocesses, hprocess], hstate,
          hcr3, htable⟩
      · rw [hresult] at hq
        cases hq
    kept := by
      intro hnone
      rcases hcases with ⟨-, hresult, -⟩ | ⟨hstate, -⟩
      · rw [hresult] at hnone
        cases hnone
      · rw [hcurrent, isRunning, hprocesses, hprocess]
        simpa using hstate }

theorem ProcessList.tick
    (h : ProcessList s nodes) {regs : Registers} {result : Option ℕ}
    (hticks : Ticks s regs result next) : ProcessList next nodes := by
  obtain ⟨fuel, running, hrunning, hselected⟩ := hticks.selected
  have hsaved : ProcessList (s.saveRegisters running regs) nodes :=
    (saveRegisters_sameList regs hrunning).processList h h.current
  exact hticks.list.processList h (hsaved.selectFrom_mem h.current hselected)

theorem ProcessList.length_lt (h : ProcessList s nodes) :
    nodes.length < processFuel := by
  have hsubset : s.processHead :: nodes ⊆ List.range 4294967296 := by
    intro p hp
    exact List.mem_range.2 (h.bounded p hp)
  have hle := (h.nodup.subperm hsubset).length_le
  rw [List.length_range, List.length_cons] at hle
  unfold processFuel
  omega

/-- With a running process behind the head, `schedule` ends and resumes the
first one behind the current process in cyclic order. -/
theorem ProcessList.schedule
    (h : ProcessList s nodes) (regs : Registers)
    (hrunning : ∃ p ∈ nodes, s.isRunning p = true) :
    ∃ q next, s.schedule regs = .ok (some q, next) ∧
      (following nodes s.currentProcessRunning).find? s.isRunning =
        some q := by
  have hnodup := (List.nodup_cons.1 h.nodup).2
  obtain ⟨q, hfind⟩ : ∃ q, (following nodes s.currentProcessRunning).find?
      s.isRunning = some q := by
    obtain ⟨p, hp, hprunning⟩ := hrunning
    exact Option.isSome_iff_exists.1
      (List.find?_isSome.2 ⟨p, mem_following.2 hp, hprunning⟩)
  obtain ⟨hq, front, back, hsplit, hfront⟩ :=
    List.find?_eq_some_iff_append.1 hfind
  have hstart := notMem_of_following hnodup hsplit
  obtain ⟨current, hcurrent⟩ := h.list.present h.current
  have hsame := saveRegisters_sameList regs hcurrent
  have hsaved : ProcessList (s.saveRegisters current regs) nodes :=
    hsame.processList h h.current
  have hlength : front.length < processFuel := by
    have hperm := (following_isRotated nodes s.currentProcessRunning).perm
    have hcount := hperm.length_eq
    rw [hsplit, List.length_append, List.length_cons] at hcount
    have hbound := h.length_lt
    omega
  have hskip : ∀ p ∈ front,
      (s.saveRegisters current regs).isRunning p = false ∧
        p ≠ s.currentProcessRunning := by
    intro p hp
    rw [hsame.isRunning]
    refine ⟨by simpa using hfront p hp, ?_⟩
    rintro rfl
    exact hstart hp
  have hqsaved : (s.saveRegisters current regs).isRunning q = true := by
    rwa [hsame.isRunning]
  have hselect :=
    hsaved.selectFrom h.current hsplit hskip (.inl hqsaved) hlength
  obtain ⟨process, hprocess, hstate⟩ := (Option.any_eq_true _ _).1 hqsaved
  have hswitch := switchTo_running hprocess (of_decide_eq_true hstate)
  have hschedule : s.schedule regs =
      (s.saveRegisters current regs).switchTo q := by
    unfold Scheduler.schedule
    simp only [h.initialised, Bool.true_eq_false, if_false,
      process_eq_ok.2 hcurrent, bind, Except.bind, hselect]
  exact ⟨q, _, hschedule.trans hswitch, hfind⟩

end

/-! ## One process more -/

section

variable {s t next : Scheduler} {nodes : List ℕ} {address : ℕ}

def tailOf (head : ℕ) (nodes : List ℕ) : ℕ := nodes.getLast?.getD head

theorem tailOf_cons (head node : ℕ) (rest : List ℕ) :
    tailOf head (node :: rest) = tailOf node rest := by
  cases rest with
  | nil => rfl
  | cons second rest =>
      simp [tailOf, List.getLast?_eq_some_getLast (List.cons_ne_nil second rest)]

theorem tailOf_mem (head : ℕ) (nodes : List ℕ) :
    tailOf head nodes ∈ head :: nodes := by
  induction nodes generalizing head with
  | nil => exact List.mem_cons_self
  | cons node rest ih =>
      rw [tailOf_cons]
      exact List.mem_cons_of_mem _ (ih node)

theorem ListFrom.findTail
    {head fuel : ℕ} (h : s.ListFrom head nodes)
    (hfuel : nodes.length < fuel) :
    s.findTail fuel head = .ok (tailOf head nodes) := by
  induction nodes generalizing head fuel with
  | nil =>
      obtain ⟨fuel, rfl⟩ : ∃ n, fuel = n + 1 := ⟨fuel - 1, by omega⟩
      obtain ⟨process, hprocess, hnext⟩ := h
      simp only [Scheduler.findTail, process_eq_ok.2 hprocess, bind,
        Except.bind, hnext]
      rfl
  | cons node rest ih =>
      obtain ⟨fuel, rfl⟩ : ∃ n, fuel = n + 1 :=
        ⟨fuel - 1, by simp only [List.length_cons] at hfuel; omega⟩
      obtain ⟨process, hprocess, hnext, hrest⟩ := h
      simp only [Scheduler.findTail, process_eq_ok.2 hprocess, bind,
        Except.bind, hnext, tailOf_cons]
      exact ih hrest (by simpa using hfuel)

theorem ListFrom.concat
    {head : ℕ} (h : s.ListFrom head nodes)
    (hnodup : (head :: nodes).Nodup)
    (hkeep : ∀ p ∈ head :: nodes, p ≠ tailOf head nodes →
      t.processes p = s.processes p)
    (htail : ∃ process, t.processes (tailOf head nodes) = some process ∧
      process.next = some address)
    (hnew : t.ListFrom address []) :
    t.ListFrom head (nodes ++ [address]) := by
  induction nodes generalizing head with
  | nil =>
      obtain ⟨process, hprocess, hnext⟩ := htail
      exact ⟨process, hprocess, hnext, hnew⟩
  | cons node rest ih =>
      obtain ⟨process, hprocess, hnext, hrest⟩ := h
      obtain ⟨hhead, hrestNodup⟩ := List.nodup_cons.1 hnodup
      rw [tailOf_cons] at htail hkeep
      have hne : head ≠ tailOf node rest := by
        intro heq
        rw [heq] at hhead
        exact hhead (tailOf_mem node rest)
      refine ⟨process, ?_, hnext, ih hrest hrestNodup ?_ htail⟩
      · rw [hkeep head List.mem_cons_self hne, hprocess]
      · intro p hp
        exact hkeep p (List.mem_cons_of_mem _ hp)

/-- What the end of `create_process` does. -/
structure Appends (s : Scheduler) (nodes : List ℕ) (address : ℕ)
    (process : Process) (next : Scheduler) : Prop where
  list : ProcessList next (nodes ++ [address])
  current : next.currentProcessRunning = s.currentProcessRunning
  head : next.processHead = s.processHead
  created : ∃ tail, next.processes address =
    some { process with prev := some tail }
  others : ∀ p ≠ address, ∃ successor : Process → Option ℕ,
    next.processes p = (s.processes p).map
      (fun old => { old with next := successor old })

theorem ListFrom.congr
    {head : ℕ} (h : s.ListFrom head nodes)
    (hsame : ∀ p ∈ head :: nodes, t.processes p = s.processes p) :
    t.ListFrom head nodes := by
  induction nodes generalizing head with
  | nil =>
      obtain ⟨process, hprocess, hend⟩ := h
      exact ⟨process, by rw [hsame head List.mem_cons_self, hprocess], hend⟩
  | cons node rest ih =>
      obtain ⟨process, hprocess, hnext, hrest⟩ := h
      refine ⟨process, ?_, hnext, ih hrest fun p hp =>
        hsame p (List.mem_cons_of_mem _ hp)⟩
      rw [hsame head List.mem_cons_self, hprocess]

theorem ProcessList.fill
    (h : ProcessList s nodes) (process : Process)
    (hapart : address ∉ s.processHead :: nodes) :
    ProcessList (s.setProcess address process) nodes where
  initialised := h.initialised
  list := by
    refine h.list.congr fun p hp => Function.update_of_ne ?_ _ _
    rintro rfl
    exact hapart hp
  nodup := h.nodup
  bounded := h.bounded
  current := h.current

theorem ProcessList.linkNext
    (h : ProcessList s nodes) {process : Process}
    (hprocess : s.processes address = some process)
    (hend : process.next = none) (haddress : address < 4294967296)
    (hapart : address ∉ s.processHead :: nodes) :
    ∃ last, s.processes (tailOf s.processHead nodes) = some last ∧
      s.linkNext (tailOf s.processHead nodes) address =
        .ok (s.setProcess (tailOf s.processHead nodes)
          { last with next := some address }) ∧
      ProcessList (s.setProcess (tailOf s.processHead nodes)
        { last with next := some address }) (nodes ++ [address]) := by
  have htail := tailOf_mem s.processHead nodes
  have hne : tailOf s.processHead nodes ≠ address := by
    intro heq
    exact hapart (heq ▸ htail)
  obtain ⟨last, hlast⟩ := h.list.present htail
  refine ⟨last, hlast, ?_, ?_⟩
  · simp only [Scheduler.linkNext, process_eq_ok.2 hlast, bind, Except.bind]
    rfl
  · exact {
      initialised := h.initialised
      list := by
        refine h.list.concat h.nodup
          (fun p _ hp => Function.update_of_ne hp _ _)
          ⟨_, Function.update_self _ _ _, rfl⟩ ⟨process, ?_, hend⟩
        rw [← hprocess]
        exact Function.update_of_ne hne.symm _ _
      nodup := by
        rw [← List.cons_append]
        refine List.nodup_append.2 ⟨h.nodup, List.nodup_singleton _, ?_⟩
        rintro p hp q hq rfl
        rw [List.mem_singleton.1 hq] at hp
        exact hapart hp
      bounded := by
        intro p hp
        rw [← List.cons_append] at hp
        rcases List.mem_append.1 hp with hold | hnew
        · exact h.bounded p hold
        · rwa [List.mem_singleton.1 hnew]
      current := by
        rw [← List.cons_append]
        exact List.mem_append_left _ h.current }

theorem linkPrev_sameList
    {process : Process} (tail : ℕ)
    (hprocess : s.processes address = some process) :
    s.linkPrev tail address =
        .ok (s.setProcess address { process with prev := some tail }) ∧
      SameList s (s.setProcess address
        { process with prev := some tail }) := by
  constructor
  · simp only [linkPrev, process_eq_ok.2 hprocess, bind, Except.bind]
    rfl
  · exact {
      initialised := rfl
      head := rfl
      links := by
        intro p
        unfold setProcess
        by_cases hp : p = address
        · subst hp
          simp [hprocess]
        · simp [Function.update_of_ne hp] }

theorem ProcessList.append
    (h : ProcessList s nodes) {process : Process}
    (hfresh : s.processes address = none) (haddress : address < 4294967296)
    (hend : process.next = none) :
    ∃ next, s.appendProcess address process = .ok next ∧
      Appends s nodes address process next := by
  have hapart : address ∉ s.processHead :: nodes := by
    intro hmem
    obtain ⟨old, hold⟩ := h.list.present hmem
    rw [hfresh] at hold
    cases hold
  have hfilled := h.fill process hapart
  have hprocess : (s.setProcess address process).processes address =
      some process := Function.update_self _ _ _
  obtain ⟨last, hlast, hlink, hlinked⟩ :=
    hfilled.linkNext hprocess hend haddress hapart
  have htail : tailOf s.processHead nodes ≠ address := by
    intro heq
    exact hapart (heq ▸ tailOf_mem s.processHead nodes)
  obtain ⟨linked, hlinkedEq⟩ : ∃ linked, linked =
      (s.setProcess address process).setProcess (tailOf s.processHead nodes)
        { last with next := some address } := ⟨_, rfl⟩
  have hnew : linked.processes address = some process := by
    rw [hlinkedEq, ← hprocess]
    exact Function.update_of_ne htail.symm _ _
  obtain ⟨hprev, hsame⟩ :=
    linkPrev_sameList (tailOf s.processHead nodes) hnew
  refine ⟨linked.setProcess address
    { process with prev := some (tailOf s.processHead nodes) }, ?_, ?_⟩
  · unfold appendProcess
    have hfind := hfilled.list.findTail h.length_lt
    simp only [hfind, bind, Except.bind]
    have hlinkEq : (s.setProcess address process).linkNext
        (tailOf (s.setProcess address process).processHead nodes) address =
        .ok linked := by
      rw [hlinkedEq]
      exact hlink
    simp only [hlinkEq]
    exact hprev
  · have hlist : ProcessList linked (nodes ++ [address]) := by
      rw [hlinkedEq]
      exact hlinked
    refine ⟨hsame.processList hlist hlist.current, ?_, ?_,
      ⟨_, Function.update_self _ _ _⟩, ?_⟩
    · rw [hlinkedEq]
      rfl
    · rw [hlinkedEq]
      rfl
    · intro p hp
      have hkeep : (linked.setProcess address
          { process with prev := some (tailOf s.processHead nodes) }).processes
            p = linked.processes p := Function.update_of_ne hp _ _
      rw [hkeep, hlinkedEq]
      by_cases hpt : p = tailOf s.processHead nodes
      · subst hpt
        refine ⟨fun _ => some address, ?_⟩
        have hold : s.processes (tailOf s.processHead nodes) = some last := by
          rw [← hlast]
          exact (Function.update_of_ne hp _ _).symm
        rw [hold]
        exact Function.update_self _ _ _
      · refine ⟨Process.next, ?_⟩
        simp [setProcess, hp, hpt]

end

theorem ProcessList.created
    {s next : Scheduler} {nodes : List ℕ} {address pid pageDir : ℕ}
    {fdTable : Option ℕ} {entryPoint : UInt32} (h : ProcessList s nodes)
    (hfresh : s.processes address = none) (haddress : address < 4294967296)
    (hcreate : s.appendProcess address
      (newProcess pid pageDir fdTable entryPoint) = .ok next) :
    Appends s nodes address (newProcess pid pageDir fdTable entryPoint)
      next := by
  obtain ⟨next', hnext', happends⟩ := @ProcessList.append s nodes address h
    (newProcess pid pageDir fdTable entryPoint) hfresh haddress rfl
  rw [hnext', Except.ok.injEq] at hcreate
  rwa [hcreate] at happends

/-! ## Runs -/

/-- The states that ticks and creations reach from a list of processes, with
the list, and for each process the registers with which it was last preempted,
created or found at the start. -/
inductive SchedRun (start : Scheduler) (first : List ℕ) :
    List ℕ → (ℕ → Option Registers) → Scheduler → Prop
  | start : SchedRun start first first
      (fun p => (start.processes p).map Process.regs) start
  | tick {nodes : List ℕ} {saved : ℕ → Option Registers}
      {s next : Scheduler} {regs : Registers} {result : Option ℕ}
      (hrun : SchedRun start first nodes saved s)
      (htick : s.schedule regs = .ok (result, next)) :
      SchedRun start first nodes
        (Function.update saved s.currentProcessRunning (some regs)) next
  | create {nodes : List ℕ} {saved : ℕ → Option Registers}
      {s next : Scheduler} {address pid pageDir : ℕ} {fdTable : Option ℕ}
      {entryPoint : UInt32}
      (hrun : SchedRun start first nodes saved s)
      (hfresh : s.processes address = none) (haddress : address < 4294967296)
      (hcreate : s.appendProcess address
        (newProcess pid pageDir fdTable entryPoint) = .ok next) :
      SchedRun start first (nodes ++ [address])
        (Function.update saved address
          (some (initialRegisters entryPoint))) next

section

variable {start s next : Scheduler} {first nodes : List ℕ}
  {saved : ℕ → Option Registers}

theorem Appends.isRunning
    {address : ℕ} {process : Process}
    (h : Appends s nodes address process next)
    (hstate : process.state = .running) {p : ℕ} (hp : s.isRunning p = true) :
    next.isRunning p = true := by
  by_cases heq : p = address
  · subst heq
    obtain ⟨tail, hcreated⟩ := h.created
    simp [Scheduler.isRunning, hcreated, hstate]
  · obtain ⟨old, hold, hrunning⟩ := (Option.any_eq_true _ _).1 hp
    obtain ⟨successor, hnext⟩ := h.others p heq
    rw [hold, Option.map_some] at hnext
    simpa [Scheduler.isRunning, hnext] using hrunning

theorem SchedRun.processList
    (hrun : SchedRun start first nodes saved s)
    (hlist : ProcessList start first) : ProcessList s nodes := by
  induction hrun with
  | start => exact hlist
  | tick _ htick ih => exact ih.tick (schedule_ticks ih.initialised htick)
  | create _ hfresh haddress hcreate ih =>
      exact (ih.created hfresh haddress hcreate).list

theorem SchedRun.running
    (hrun : SchedRun start first nodes saved s)
    (hlist : ProcessList start first)
    (hrunning : ∃ p ∈ first, start.isRunning p = true) :
    ∃ p ∈ nodes, s.isRunning p = true := by
  induction hrun with
  | start => exact hrunning
  | tick hrun htick ih =>
      obtain ⟨p, hp, hprunning⟩ := ih
      have hticks := schedule_ticks (hrun.processList hlist).initialised htick
      exact ⟨p, hp, by rwa [hticks.list.isRunning]⟩
  | create hrun hfresh haddress hcreate ih =>
      obtain ⟨p, hp, hprunning⟩ := ih
      have happends :=
        (hrun.processList hlist).created hfresh haddress hcreate
      exact ⟨p, List.mem_append_left _ hp, happends.isRunning rfl hprunning⟩

theorem SchedRun.allRunning
    (hrun : SchedRun start first nodes saved s)
    (hlist : ProcessList start first)
    (hrunning : ∀ p ∈ first, start.isRunning p = true) :
    ∀ p ∈ nodes, s.isRunning p = true := by
  induction hrun with
  | start => exact hrunning
  | tick hrun htick ih =>
      intro p hp
      have hticks := schedule_ticks (hrun.processList hlist).initialised htick
      rw [hticks.list.isRunning]
      exact ih p hp
  | create hrun hfresh haddress hcreate ih =>
      intro p hp
      have happends :=
        (hrun.processList hlist).created hfresh haddress hcreate
      rcases List.mem_append.1 hp with hold | hnew
      · exact happends.isRunning rfl (ih p hold)
      · obtain ⟨tail, hcreated⟩ := happends.created
        rw [List.mem_singleton.1 hnew, Scheduler.isRunning, hcreated]
        rfl

/-! ## Round robin -/

/-- Ticks one after another, with the process each of them resumes. -/
def runTicks (s : Scheduler) :
    List Registers → Outcome (List (Option ℕ) × Scheduler)
  | [] => return ([], s)
  | regs :: rest => do
      let (result, middle) ← s.schedule regs
      let (results, last) ← middle.runTicks rest
      return (result :: results, last)

/-- As many ticks as there are processes in `ahead` resume just these. -/
theorem ProcessList.runTicks
    {ahead behind : List ℕ} {frames : List Registers}
    (h : ProcessList s nodes)
    (hahead : (following nodes s.currentProcessRunning).filter s.isRunning =
      ahead ++ behind)
    (hlength : frames.length = ahead.length) :
    ∃ last, s.runTicks frames = .ok (ahead.map some, last) := by
  have hnodup := (List.nodup_cons.1 h.nodup).2
  induction ahead generalizing s behind frames with
  | nil =>
      rw [List.length_nil, List.length_eq_zero_iff] at hlength
      subst hlength
      exact ⟨s, rfl⟩
  | cons q ahead ih =>
      obtain ⟨regs, rest, rfl⟩ : ∃ regs rest, frames = regs :: rest :=
        List.exists_cons_of_length_eq_add_one hlength
      have hq : q ∈ (following nodes s.currentProcessRunning).filter
          s.isRunning := by simp [hahead]
      obtain ⟨hqnodes, hqrunning⟩ := List.mem_filter.1 hq
      obtain ⟨q', middle, hschedule, hfind⟩ := h.schedule regs
        ⟨q, mem_following.1 hqnodes, hqrunning⟩
      have hsame : q' = q := by
        rw [← List.head?_filter, hahead, List.cons_append, List.head?_cons,
          Option.some.injEq] at hfind
        exact hfind.symm
      subst hsame
      have hticks := schedule_ticks h.initialised hschedule
      have hcurrent : middle.currentProcessRunning = q' :=
        (hticks.resumed q' rfl).1.symm
      obtain ⟨-, front, back, hsplit, hfront⟩ :=
        List.find?_eq_some_iff_append.1 hfind
      have hfrontNone : front.filter s.isRunning = [] := by
        rw [List.filter_eq_nil_iff]
        intro p hp
        simpa using hfront p hp
      have hback : back.filter s.isRunning = ahead ++ behind := by
        rw [hsplit, List.filter_append, hfrontNone, List.nil_append,
          List.filter_cons_of_pos hqrunning, List.cons_append,
          List.cons.injEq] at hahead
        exact hahead.2
      have hmiddle : (following nodes middle.currentProcessRunning).filter
          middle.isRunning = ahead ++ (behind ++ [q']) := by
        rw [hcurrent, hticks.list.isRunning, following_split hnodup hsplit,
          List.filter_append, List.filter_append, hback, hfrontNone]
        simp [hqrunning]
      obtain ⟨last, hlast⟩ := ih (h.tick hticks) hmiddle
        (by simpa using hlength)
      refine ⟨last, ?_⟩
      simp only [Scheduler.runTicks, hschedule, hlast, bind, Except.bind]
      rfl

/-- After any ticks and creations the next tick resumes the first running
process behind the current one, and as many ticks as processes are running
resume each of them once, in the order of the list. -/
theorem schedule_roundRobin
    (hlist : ProcessList start first)
    (hrunning : ∃ p ∈ first, start.isRunning p = true)
    (hrun : SchedRun start first nodes saved s) :
    (∀ regs, ∃ q next, s.schedule regs = .ok (some q, next) ∧
      (following nodes s.currentProcessRunning).find? s.isRunning =
        some q ∧ next.currentProcessRunning = q) ∧
    ∀ frames : List Registers,
      frames.length = (nodes.filter s.isRunning).length →
        ∃ selected last,
          s.runTicks frames = .ok (selected.map some, last) ∧
          selected = (following nodes s.currentProcessRunning).filter
            s.isRunning ∧
          selected.IsRotated (nodes.filter s.isRunning) ∧
          selected.Nodup := by
  have h := hrun.processList hlist
  refine ⟨fun regs => ?_, fun frames hlength => ?_⟩
  · obtain ⟨q, next, hschedule, hfind⟩ :=
      h.schedule regs (hrun.running hlist hrunning)
    have hticks := schedule_ticks h.initialised hschedule
    exact ⟨q, next, hschedule, hfind, (hticks.resumed q rfl).1.symm⟩
  · have hrotated : ((following nodes s.currentProcessRunning).filter
        s.isRunning).IsRotated (nodes.filter s.isRunning) :=
      isRotated_filter (following_isRotated nodes s.currentProcessRunning) _
    have hcount := hrotated.perm.length_eq
    obtain ⟨last, hlast⟩ := h.runTicks (List.append_nil _).symm
      (hlength.trans hcount.symm)
    exact ⟨_, last, hlast, rfl, hrotated,
      (following_nodup (List.nodup_cons.1 h.nodup).2 _).filter _⟩

def twoRunning : Scheduler where
  isInitProcess := true
  processHead := 0xD0000020
  currentProcessRunning := 0xD0000020
  processes p :=
    if p = 0xD0000020 then
      some ⟨0, .idle, 0, none, 0, .zero, some 0xD0000100, none⟩
    else if p = 0xD0000100 then
      some ⟨1, .running, 0xC0201000, some 0xD0000400, 0x8048000,
        initialRegisters 0x8048000, some 0xD0000200, some 0xD0000020⟩
    else if p = 0xD0000200 then
      some ⟨2, .running, 0xC0202000, some 0xD0000900, 0x8048000,
        initialRegisters 0x8048000, none, some 0xD0000100⟩
    else none
  cr3 := 0x101000
  vfsFdTable := some 0xD0000000

theorem twoRunning_list :
    ProcessList twoRunning [0xD0000100, 0xD0000200] where
  initialised := rfl
  list := ⟨_, rfl, rfl, _, rfl, rfl, _, rfl, rfl⟩
  nodup := by decide
  bounded := by decide
  current := by decide

theorem twoRunning_running :
    ∀ p ∈ [0xD0000100, 0xD0000200], twoRunning.isRunning p = true := by
  decide

theorem twoRunning_tick :
    ∃ s, twoRunning.schedule .zero = .ok (some 0xD0000100, s) ∧
      s.currentProcessRunning = 0xD0000100 ∧
      ∀ p ∈ [0xD0000100, 0xD0000200], s.isRunning p = true := by
  have htest : (twoRunning.schedule .zero).satisfies (fun r =>
      decide (r.1 = some 0xD0000100 ∧ r.2.currentProcessRunning = 0xD0000100) &&
        [0xD0000100, 0xD0000200].all r.2.isRunning) = true := by
    decide +kernel
  obtain ⟨⟨result, s⟩, hschedule, htest⟩ := Outcome.exists_of_satisfies htest
  obtain ⟨hresumes, hrunning⟩ := Bool.and_eq_true_iff.1 htest
  obtain ⟨rfl, hcurrent⟩ := of_decide_eq_true hresumes
  exact ⟨s, hschedule, hcurrent, List.all_eq_true.1 hrunning⟩

/-- After that tick the second process is next, and two ticks resume both. -/
theorem schedule_roundRobin_twoRunning :
    ∃ s, twoRunning.schedule .zero = .ok (some 0xD0000100, s) ∧
      (∃ next, s.schedule .zero = .ok (some 0xD0000200, next)) ∧
      ∃ last, s.runTicks [.zero, .zero] =
        .ok ([some 0xD0000200, some 0xD0000100], last) := by
  obtain ⟨s, hschedule, hcurrent, hrunning⟩ := twoRunning_tick
  obtain ⟨hnext, hround⟩ := schedule_roundRobin twoRunning_list
    ⟨_, List.mem_cons_self, twoRunning_running _ List.mem_cons_self⟩
    (.tick .start hschedule)
  obtain ⟨hfirst, hsecond⟩ : s.isRunning 0xD0000100 = true ∧
      s.isRunning 0xD0000200 = true :=
    ⟨hrunning _ (by decide), hrunning _ (by decide)⟩
  have horder : following [0xD0000100, 0xD0000200] s.currentProcessRunning =
      [0xD0000200, 0xD0000100] := by
    rw [hcurrent]
    decide
  refine ⟨s, hschedule, ?_, ?_⟩
  · obtain ⟨q, next, hq, hfind, -⟩ := hnext .zero
    rw [horder, List.find?_cons_of_pos hsecond, Option.some.injEq] at hfind
    subst hfind
    exact ⟨next, hq⟩
  · obtain ⟨selected, last, hticks, hselected, -⟩ := hround [.zero, .zero]
      (by simp [hfirst, hsecond])
    rw [horder] at hselected
    simp only [List.filter_cons, hfirst, hsecond, if_true, List.filter_nil]
      at hselected
    subst hselected
    exact ⟨last, hticks⟩

/-! ## Saved registers -/

theorem SchedRun.saved_eq
    (hrun : SchedRun start first nodes saved s)
    (hlist : ProcessList start first) {p : ℕ} {process : Process}
    (hprocess : s.processes p = some process) :
    saved p = some process.regs := by
  induction hrun generalizing process with
  | start => simp [hprocess]
  | @tick nodes saved s next regs result hrun htick ih =>
      have hticks := schedule_ticks (hrun.processList hlist).initialised htick
      obtain ⟨running, hrunning, hnext⟩ := hticks.saved
      by_cases hp : p = s.currentProcessRunning
      · subst hp
        rw [hnext, Function.update_self, Option.some.injEq] at hprocess
        rw [Function.update_self, ← hprocess]
      · rw [hnext, Function.update_of_ne hp] at hprocess
        rw [Function.update_of_ne hp, ih hprocess]
  | @create nodes saved s next address pid pageDir fdTable entryPoint hrun
      hfresh haddress hcreate ih =>
      have happends :=
        (hrun.processList hlist).created hfresh haddress hcreate
      by_cases hp : p = address
      · subst hp
        obtain ⟨tail, hcreated⟩ := happends.created
        rw [hcreated, Option.some.injEq] at hprocess
        rw [Function.update_self, ← hprocess]
        rfl
      · obtain ⟨successor, hothers⟩ := happends.others p hp
        rw [hothers, Option.map_eq_some_iff] at hprocess
        obtain ⟨old, hold, rfl⟩ := hprocess
        rw [Function.update_of_ne hp, ih hold]

theorem advance_alone
    {head : Process} (hhead : s.processes s.processHead = some head)
    (hend : head.next = none) :
    s.advance s.processHead = .ok (s.processHead, true) := by
  unfold Scheduler.advance
  simp only [process_eq_ok.2 hhead, bind, Except.bind, hend]
  rfl

theorem selectFrom_alone
    {head : Process} (hhead : s.processes s.processHead = some head)
    (hend : head.next = none) (start fuel : ℕ) :
    s.selectFrom start (fuel + 1) s.processHead = .ok s.processHead := by
  simp only [Scheduler.selectFrom, advance_alone hhead hend, bind,
    Except.bind, if_true]
  rfl

/-- With nothing behind the head every tick ends at the head. -/
theorem ProcessList.schedule_empty
    (h : ProcessList s []) (regs : Registers) :
    ∃ result next, s.schedule regs = .ok (result, next) := by
  have hcurrent : s.currentProcessRunning = s.processHead := by
    simpa using h.current
  obtain ⟨head, hhead, hend⟩ := h.list
  have hsaved : (s.saveRegisters head regs).processes s.processHead =
      some { head with regs := regs } := by
    simp [saveRegisters, setProcess, hcurrent]
  obtain ⟨fuel, hfuel⟩ : ∃ n, processFuel = n + 1 :=
    ⟨4294967295, by unfold processFuel; rfl⟩
  have hselect : (s.saveRegisters head regs).selectFrom s.processHead
      processFuel s.processHead = .ok s.processHead := by
    rw [hfuel]
    exact selectFrom_alone (s := s.saveRegisters head regs) hsaved hend _ _
  unfold Scheduler.schedule switchTo
  rw [hcurrent]
  simp only [h.initialised, Bool.true_eq_false, if_false,
    process_eq_ok.2 hhead, bind, Except.bind, hselect,
    process_eq_ok.2 hsaved]
  split_ifs
  · exact ⟨_, _, rfl⟩
  · exact ⟨_, _, rfl⟩

/-- On a list of running processes every tick resumes a process with the
registers with which it was last preempted or created, in its own address space
and with its own descriptors, and touches no other process than the one that is
preempted. -/
theorem schedule_resumes
    (hlist : ProcessList start first)
    (hrunning : ∀ p ∈ first, start.isRunning p = true)
    (hrun : SchedRun start first nodes saved s) (regs : Registers) :
    ∃ result next, s.schedule regs = .ok (result, next) ∧
      (nodes ≠ [] → result.isSome = true) ∧
      (∀ q, result = some q → ∃ process,
        next.processes q = some process ∧
        Function.update saved s.currentProcessRunning (some regs) q =
          some process.regs ∧
        next.cr3 = sub32 process.pageDir Memory.kernelStart ∧
        next.vfsFdTable = process.fdTable ∧
        next.currentProcessRunning = q) ∧
      ∀ p ≠ s.currentProcessRunning, next.processes p = s.processes p := by
  have h := hrun.processList hlist
  obtain ⟨result, next, hschedule, hsome⟩ : ∃ result next,
      s.schedule regs = .ok (result, next) ∧
        (nodes ≠ [] → result.isSome = true) := by
    by_cases hempty : nodes = []
    · subst hempty
      obtain ⟨result, next, hschedule⟩ := h.schedule_empty regs
      exact ⟨result, next, hschedule, fun hne => absurd rfl hne⟩
    · obtain ⟨p, hp⟩ := List.exists_mem_of_ne_nil nodes hempty
      obtain ⟨q, next, hschedule, -⟩ :=
        h.schedule regs ⟨p, hp, hrun.allRunning hlist hrunning p hp⟩
      exact ⟨some q, next, hschedule, fun _ => rfl⟩
  have hticks := schedule_ticks h.initialised hschedule
  have hafter := SchedRun.tick hrun hschedule
  refine ⟨result, next, hschedule, hsome, ?_, ?_⟩
  · intro q hq
    obtain ⟨hcurrent, process, hprocess, -, hcr3, htable⟩ :=
      hticks.resumed q hq
    exact ⟨process, hprocess, hafter.saved_eq hlist hprocess, hcr3, htable,
      hcurrent.symm⟩
  · intro p hp
    obtain ⟨running, -, hnext⟩ := hticks.saved
    rw [hnext, Function.update_of_ne hp]

/-- What the processor held when a process was preempted there. -/
def preempted (value : UInt32) : Registers := { Registers.zero with eax := value }

/-- The two processes preempt each other, and the first goes on with the registers
that it had. -/
theorem schedule_resumes_twoRunning :
    ∃ s t next process, twoRunning.schedule .zero = .ok (some 0xD0000100, s) ∧
      s.schedule (preempted 1) = .ok (some 0xD0000200, t) ∧
      t.schedule (preempted 2) = .ok (some 0xD0000100, next) ∧
      next.processes 0xD0000100 = some process ∧ process.regs = preempted 1 ∧
      next.cr3 = sub32 process.pageDir Memory.kernelStart ∧
      next.vfsFdTable = process.fdTable := by
  obtain ⟨s, hschedule, hcurrent, -⟩ := twoRunning_tick
  have htest : (twoRunning.schedule .zero).satisfies (fun r =>
      (r.2.schedule (preempted 1)).satisfies (fun r =>
        decide (r.1 = some 0xD0000200 ∧ r.2.currentProcessRunning = 0xD0000200) &&
        (r.2.schedule (preempted 2)).satisfies (fun r =>
          decide (r.1 = some 0xD0000100)))) = true := by
    decide +kernel
  obtain ⟨_, hsame, htest⟩ := Outcome.exists_of_satisfies htest
  rw [hschedule, Except.ok.injEq] at hsame
  subst hsame
  obtain ⟨⟨second, t⟩, hsecond, htest⟩ := Outcome.exists_of_satisfies htest
  obtain ⟨hpreempts, htest⟩ := Bool.and_eq_true_iff.1 htest
  obtain ⟨rfl, hother⟩ := of_decide_eq_true hpreempts
  obtain ⟨⟨third, last⟩, hthird, hfirst⟩ := Outcome.exists_of_satisfies htest
  obtain rfl := of_decide_eq_true hfirst
  obtain ⟨result, next, hresult, -, hresumes, -⟩ := schedule_resumes
    twoRunning_list twoRunning_running (.tick (.tick .start hschedule) hsecond)
      (preempted 2)
  rw [hthird, Except.ok.injEq, Prod.mk.injEq] at hresult
  obtain ⟨rfl, rfl⟩ := hresult
  obtain ⟨process, hprocess, hsaved, hcr3, htable, -⟩ := hresumes _ rfl
  rw [hother, hcurrent, Function.update_of_ne (by decide), Function.update_self,
    Option.some.injEq] at hsaved
  exact ⟨s, t, last, process, hschedule, hsecond, hthird, hprocess, hsaved.symm,
    hcr3, htable⟩

end

end Scheduler

end ClOs
