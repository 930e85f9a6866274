import ClOs.ContextSwitches

/-!
# A processor for every process

The timer, the keyboard and the system calls interrupt the running process in any
order.  Each process has registers of its own all the same: those of the one
processor are always those of the running process, and the others are saved.
-/

namespace ClOs

open Scheduler

/-! ## Runs -/

/-- The running program goes on, or it is interrupted. -/
inductive Event
  | run (code : Cpu → Cpu)
  | interrupt (number : UInt32) (scratch : Scratch)

/-- A process changes its registers as it likes but stays outside the kernel.
Inside there is only the loop at the end of `kmain`. -/
def Cpu.run (c : Cpu) (code : Cpu → Cpu) : Cpu :=
  if c.Outer then { code c with cs := c.cs } else { c with eip := (code c).eip }

def Event.exec (stack : KernelStack) (m : Machine) : Event → Outcome Machine
  | run code => .ok { m with cpu := m.cpu.run code }
  | interrupt number scratch => m.interrupt stack number none scratch

def runEvents (stack : KernelStack) : List Event → Machine → Outcome Machine
  | [], m => .ok m
  | event :: rest, m => do runEvents stack rest (← event.exec stack m)

/-- An exception does not return. -/
def Event.Returns : Event → Prop
  | run _ => True
  | interrupt number _ => 32 ≤ number

/-! ## Registers of one's own -/

/-- The running process and the registers of every process. -/
structure Contexts where
  running : ℕ
  cpus : ℕ → Cpu

/-- An event with registers for every process: the timer passes the turn to the
next process, and nothing else is exchanged. -/
def Event.give (nodes : List ℕ) (c : Contexts) : Event → Contexts
  | run code =>
      { c with
        cpus := Function.update c.cpus c.running ((c.cpus c.running).run code) }
  | interrupt number _ =>
      { running :=
          if number = 32 then ((following nodes c.running).head?).getD c.running
          else c.running
        cpus := Function.update c.cpus c.running (c.cpus c.running).flat }

def giveEvents (nodes : List ℕ) (events : List Event) (c : Contexts) : Contexts :=
  events.foldl (Event.give nodes) c

/-- The machine has the registers of the running process, and those of the other
processes are saved. -/
structure Follows (stack : KernelStack) (nodes : List ℕ) (c : Contexts)
    (m : Machine) : Prop where
  list : ProcessList m.scheduler nodes
  running : ∀ p ∈ nodes, m.scheduler.isRunning p = true
  idle : m.scheduler.isRunning m.scheduler.processHead = false
  current : m.scheduler.currentProcessRunning = c.running
  cpu : m.cpu = c.cpus c.running
  saved : ∀ p ∈ nodes, p ≠ c.running → ∃ process,
    m.scheduler.processes p = some process ∧ process.regs.context = c.cpus p
  outer : ∀ p ∈ nodes, (c.cpus p).Outer
  inStack : m.InStack stack
  placed : m.scheduler.Placed stack
  held : m.scheduler.Held m.memory

section

variable {stack : KernelStack} {nodes : List ℕ} {c : Contexts} {m : Machine}

theorem run_outer (cpu : Cpu) (code : Cpu → Cpu) :
    (cpu.run code).cs = cpu.cs := by
  unfold Cpu.run
  split_ifs
  · rfl
  · rfl

theorem run_inStack (h : m.InStack stack) (code : Cpu → Cpu) :
    Machine.InStack stack { m with cpu := m.cpu.run code } := by
  intro hinner
  have hcs : ¬m.cpu.Outer := by
    unfold Cpu.Outer at hinner ⊢
    rwa [run_outer] at hinner
  have hesp : (m.cpu.run code).esp = m.cpu.esp := by
    unfold Cpu.run
    rw [if_neg hcs]
  simp only [hesp]
  exact h hcs

theorem update_outer
    (h : ∀ p ∈ nodes, (c.cpus p).Outer) {cpu : Cpu}
    (hcs : cpu.cs = (c.cpus c.running).cs) :
    ∀ p ∈ nodes, (Function.update c.cpus c.running cpu p).Outer := by
  intro p hp
  by_cases hrunning : p = c.running
  · subst hrunning
    rw [Function.update_self]
    exact (congrArg (· &&& 3) hcs).trans (h _ hp)
  · rw [Function.update_of_ne hrunning]
    exact h p hp

theorem Follows.run (h : Follows stack nodes c m) (code : Cpu → Cpu) :
    Follows stack nodes ((Event.run code).give nodes c)
      { m with cpu := m.cpu.run code } where
  list := h.list
  running := h.running
  idle := h.idle
  current := h.current
  cpu := by
    unfold Event.give
    simp only [Function.update_self, h.cpu]
  saved p hp hne := by
    obtain ⟨process, hprocess, hregs⟩ := h.saved p hp hne
    exact ⟨process, hprocess, hregs.trans (Function.update_of_ne hne _ _).symm⟩
  outer := update_outer h.outer (run_outer _ code)
  inStack := run_inStack h.inStack code
  placed := h.placed
  held := h.held

theorem flat_inStack
    {last : Machine} (h : m.InStack stack) (hcpu : last.cpu = m.cpu.flat) :
    last.InStack stack := by
  unfold Machine.InStack Cpu.Outer at *
  rw [hcpu]
  exact h

theorem Follows.other
    (h : Follows stack nodes c m) {number : UInt32} (hnumber : 32 < number)
    (scratch : Scratch) :
    ∃ last, m.interrupt stack number none scratch = .ok last ∧
      Follows stack nodes ((Event.interrupt number scratch).give nodes c)
        last := by
  obtain ⟨last, hlast, hcpu, hscheduler, hbelow, habove⟩ :=
    interrupt_other h.inStack hnumber scratch
  have hne : number ≠ 32 := by
    rintro rfl
    exact absurd hnumber (by decide)
  refine ⟨last, hlast, ?_⟩
  unfold Event.give
  simp only [if_neg hne]
  exact {
    list := by rw [hscheduler]; exact h.list
    running := by rw [hscheduler]; exact h.running
    idle := by rw [hscheduler]; exact h.idle
    current := by rw [hscheduler]; exact h.current
    cpu := by
      simp only [hcpu, h.cpu, Function.update_self]
    saved := by
      intro p hp hrunning
      obtain ⟨process, hprocess, hregs⟩ := h.saved p hp hrunning
      exact ⟨process, by rw [hscheduler, hprocess],
        hregs.trans (Function.update_of_ne hrunning _ _).symm⟩
    outer := update_outer h.outer rfl
    inStack := flat_inStack h.inStack hcpu
    placed := by rw [hscheduler]; exact h.placed
    held := by
      rw [hscheduler]
      exact h.held.congr h.placed hbelow habove }

theorem Follows.schedule
    (h : Follows stack nodes c m) (r : Registers) :
    ∃ result next, m.scheduler.schedule r = .ok (result, next) ∧
      result = (following nodes c.running).head? ∧
        next.currentProcessRunning = result.getD c.running := by
  by_cases hempty : nodes = []
  · subst hempty
    obtain ⟨result, next, hschedule⟩ := h.list.schedule_empty r
    have hticks := schedule_ticks h.list.initialised hschedule
    have hnext := h.list.tick hticks
    have hcurrent : next.currentProcessRunning = m.scheduler.processHead := by
      rw [← hticks.list.head]
      simpa using hnext.current
    have hrunning : c.running = m.scheduler.processHead := by
      rw [← h.current]
      simpa using h.list.current
    have hresult : result = none := by
      rcases result with - | q
      · rfl
      · obtain ⟨hq, process, hprocess, hstate, -⟩ := hticks.resumed q rfl
        have hidle := h.idle
        rw [← hticks.list.isRunning, ← hcurrent, ← hq] at hidle
        simp [Scheduler.isRunning, hprocess, hstate] at hidle
    refine ⟨result, next, hschedule, ?_, ?_⟩
    · rw [hresult]
      rfl
    · rw [hresult, hcurrent, hrunning]
      rfl
  · obtain ⟨p, hp⟩ := List.exists_mem_of_ne_nil nodes hempty
    obtain ⟨q, next, hschedule, hfind⟩ :=
      h.list.schedule r ⟨p, hp, h.running p hp⟩
    have hticks := schedule_ticks h.list.initialised hschedule
    have hall : ∀ p' ∈ following nodes c.running,
        m.scheduler.isRunning p' = true := fun p' hp' =>
      h.running p' (mem_following.1 hp')
    refine ⟨some q, next, hschedule, ?_, (hticks.resumed q rfl).1.symm⟩
    rw [h.current] at hfind
    rw [← hfind]
    cases hlist : following nodes c.running with
    | nil => rfl
    | cons first rest =>
        rw [hlist] at hall
        rw [List.find?_cons_of_pos (hall first List.mem_cons_self)]
        rfl

theorem number_lt
    {number : UInt32} (hle : 32 ≤ number) (hne : number ≠ 32) : 32 < number := by
  rw [UInt32.le_iff_toNat_le] at hle
  rw [UInt32.lt_iff_toNat_lt]
  exact Nat.lt_of_le_of_ne hle fun heq => hne (UInt32.toNat_inj.1 heq.symm)

theorem Follows.allSaved
    (h : Follows stack nodes c m) {r : Registers} {result : Option ℕ}
    {next : Scheduler} (hr : m.cpu.Outer → r.context = m.cpu.flat)
    (hticks : Ticks m.scheduler r result next) :
    ∀ p ∈ nodes, ∃ process, next.processes p = some process ∧
      process.regs.context =
        Function.update c.cpus c.running (c.cpus c.running).flat p := by
  obtain ⟨running, -, hnext⟩ := hticks.saved
  intro p hp
  rw [hnext, h.current]
  by_cases hrunning : p = c.running
  · subst hrunning
    have houter : m.cpu.Outer := by
      rw [h.cpu]
      exact h.outer _ hp
    refine ⟨_, Function.update_self _ _ _, ?_⟩
    rw [Function.update_self, ← h.cpu]
    exact hr houter
  · obtain ⟨process, hprocess, hregs⟩ := h.saved p hp hrunning
    refine ⟨process, ?_, ?_⟩
    · rw [Function.update_of_ne hrunning, hprocess]
    · rw [Function.update_of_ne hrunning, hregs]

theorem Follows.timer
    (h : Follows stack nodes c m) (scratch : Scratch) :
    ∃ last, m.interrupt stack 32 none scratch = .ok last ∧
      Follows stack nodes ((Event.interrupt 32 scratch).give nodes c) last := by
  obtain ⟨r, hr, htimer⟩ :=
    interrupt_timer h.inStack h.list.initialised h.placed h.held
  obtain ⟨result, next, hschedule, hresult, hcurrent⟩ := h.schedule r
  obtain ⟨last, hlast, hscheduler, hheld, hnone, hsome⟩ :=
    htimer result next hschedule scratch
  have hticks := schedule_ticks h.list.initialised hschedule
  have hsaved := h.allSaved hr hticks
  have houter := update_outer h.outer
    (rfl : (c.cpus c.running).flat.cs = (c.cpus c.running).cs)
  have hcpu : last.cpu = Function.update c.cpus c.running
      (c.cpus c.running).flat (result.getD c.running) ∧ last.InStack stack := by
    cases hcase : result with
    | none =>
        have hsame := hnone hcase
        refine ⟨?_, flat_inStack h.inStack hsame⟩
        rw [hsame, h.cpu, Option.getD_none, Function.update_self]
    | some q =>
        have hq : q ∈ nodes := by
          rw [hcase] at hresult
          exact mem_following.1 (List.mem_of_mem_head? hresult.symm)
        obtain ⟨process, hprocess, hregs⟩ := hsaved q hq
        have hsame := hsome q process hcase hprocess (hregs ▸ houter q hq)
        refine ⟨hsame.trans hregs, fun hinner => absurd ?_ hinner⟩
        rw [hsame, hregs]
        exact houter q hq
  refine ⟨last, hlast, ?_⟩
  unfold Event.give
  simp only [if_true]
  rw [← hresult]
  exact {
    list := by
      rw [hscheduler]
      exact h.list.tick hticks
    running := by
      rw [hscheduler, hticks.list.isRunning]
      exact h.running
    idle := by
      rw [hscheduler, hticks.list.isRunning, hticks.list.head]
      exact h.idle
    current := by rw [hscheduler, hcurrent]
    cpu := hcpu.1
    saved := fun p hp _ => by
      rw [hscheduler]
      exact hsaved p hp
    outer := houter
    inStack := hcpu.2
    placed := by
      rw [hscheduler]
      exact h.placed.tick hticks
    held := by rw [hscheduler]; exact hheld }

theorem runEvents_simulates
    (h : Follows stack nodes c m) (events : List Event)
    (hreturns : ∀ event ∈ events, event.Returns) :
    ∃ last, runEvents stack events m = .ok last ∧
      Follows stack nodes (giveEvents nodes events c) last := by
  induction events generalizing c m with
  | nil => exact ⟨m, rfl, h⟩
  | cons event rest ih =>
      obtain ⟨hfirst, hrest⟩ := List.forall_mem_cons.1 hreturns
      obtain ⟨middle, hmiddle, hfollows⟩ : ∃ middle,
          event.exec stack m = .ok middle ∧
            Follows stack nodes (event.give nodes c) middle := by
        cases event with
        | run code => exact ⟨_, rfl, h.run code⟩
        | interrupt number scratch =>
            by_cases htimer : number = 32
            · subst htimer
              exact h.timer scratch
            · exact h.other (number_lt hfirst htimer) scratch
      obtain ⟨last, hlast, hend⟩ := ih hfollows hrest
      refine ⟨last, ?_, hend⟩
      unfold runEvents
      rw [hmiddle]
      exact hlast

/-! ## Turns -/

/-- What an event does to the registers of the process that is running. -/
def Cpu.react (cpu : Cpu) : Event → Cpu
  | .run code => cpu.run code
  | .interrupt _ _ => cpu.flat

def turns (nodes : List ℕ) (p : ℕ) : List Event → Contexts → List Event
  | [], _ => []
  | event :: rest, c =>
      if c.running = p then event :: turns nodes p rest (event.give nodes c)
      else turns nodes p rest (event.give nodes c)

theorem give_cpus (event : Event) (p : ℕ) :
    (event.give nodes c).cpus p =
      if c.running = p then (c.cpus p).react event else c.cpus p := by
  have hgive : (event.give nodes c).cpus =
      Function.update c.cpus c.running ((c.cpus c.running).react event) := by
    cases event <;> rfl
  rw [hgive]
  split_ifs with hp
  · subst hp
    exact Function.update_self _ _ _
  · exact Function.update_of_ne (Ne.symm hp) _ _

/-- The registers of a process come from its own turns. -/
theorem giveEvents_cpus (events : List Event) (p : ℕ) :
    (giveEvents nodes events c).cpus p =
      (turns nodes p events c).foldl Cpu.react (c.cpus p) := by
  induction events generalizing c with
  | nil => rfl
  | cons event rest ih =>
      have hrest := @ih (event.give nodes c)
      rw [give_cpus] at hrest
      unfold turns
      split_ifs at hrest ⊢ with hp
      · exact hrest
      · exact hrest

/-- The registers with which a process goes on come from what it has done in its
own turns, whatever the other processes do in theirs. -/
theorem runEvents_own
    (h : Follows stack nodes c m) (events : List Event)
    (hreturns : ∀ event ∈ events, event.Returns) :
    ∃ last, runEvents stack events m = .ok last ∧
      last.cpu = (turns nodes last.scheduler.currentProcessRunning events
        c).foldl Cpu.react (c.cpus last.scheduler.currentProcessRunning) ∧
      ∀ p ∈ nodes, p ≠ last.scheduler.currentProcessRunning →
        (loadRegisters last.memory (regsAddress p)).context =
          (turns nodes p events c).foldl Cpu.react (c.cpus p) := by
  obtain ⟨last, hlast, hfollows⟩ := runEvents_simulates h events hreturns
  refine ⟨last, hlast, ?_, fun p hp hne => ?_⟩
  · rw [hfollows.cpu, hfollows.current]
    exact giveEvents_cpus events _
  · rw [hfollows.current] at hne
    obtain ⟨process, hprocess, hregs⟩ := hfollows.saved p hp hne
    rw [hfollows.held p process hprocess, hregs]
    exact giveEvents_cpus events p

def sampleStack : KernelStack := ⟨0xC0110000, 0xC0130000, by decide, by decide⟩

def firstProcess : Scheduler where
  isInitProcess := true
  processHead := 0xD0000020
  currentProcessRunning := 0xD0000020
  processes p :=
    if p = 0xD0000020 then
      some ⟨0, .idle, 0, none, 0, .zero, some 0xD0000100, none⟩
    else if p = 0xD0000100 then
      some ⟨1, .running, 0xC0201000, some 0xD0000400, 0x8048000,
        initialRegisters 0x8048000, none, some 0xD0000020⟩
    else none
  cr3 := 0x101000
  vfsFdTable := some 0xD0000000

theorem firstProcess_list : Scheduler.ProcessList firstProcess [0xD0000100] where
  initialised := rfl
  list := ⟨_, rfl, rfl, _, rfl, rfl⟩
  nodup := by decide
  bounded := by decide
  current := by decide

/-- The loop of `kmain` before the first process has run. -/
def firstMachine : Machine where
  cpu := ⟨0, 0, 0, 0, 0xC012FF00, 0, 0, 0, 0xC0100000, 0x202, 0x08, 0x10, 0x10,
    0x10, 0x10, 0x10⟩
  cr2 := 0
  memory := ByteStore.pushWords (fun _ => 0) 0xD0000178
    (initialRegisters 0x8048000).words.reverse
  scheduler := firstProcess

def firstContexts : Contexts where
  running := 0xD0000020
  cpus p :=
    if p = 0xD0000020 then firstMachine.cpu
    else (initialRegisters 0x8048000).context

theorem firstProcess_cases
    {p : ℕ} {process : Process} (h : firstProcess.processes p = some process) :
    p = 0xD0000020 ∧ process.regs = .zero ∨
      p = 0xD0000100 ∧ process.regs = initialRegisters 0x8048000 := by
  unfold firstProcess at h
  simp only at h
  split_ifs at h with hhead hprocess
  · exact .inl ⟨hhead, by rw [← Option.some.inj h]⟩
  · exact .inr ⟨hprocess, by rw [← Option.some.inj h]⟩

theorem firstMachine_held : firstProcess.Held firstMachine.memory := by
  have hroom : 4 * (initialRegisters 0x8048000).words.reverse.length ≤
      (0xD0000178 : UInt32).toNat := by decide
  intro p process hprocess
  rcases firstProcess_cases hprocess with ⟨rfl, hregs⟩ | ⟨rfl, hregs⟩
  · rw [hregs]
    refine (loadRegisters_congr ?_).trans
      (rfl : loadRegisters (fun _ => 0) 0xD0000054 = Registers.zero)
    exact ByteStore.pushWords_agreeOn _ hroom (.inl (by decide))
  · rw [hregs]
    apply loadRegisters_eq
    have hwords := @ByteStore.WordsAt.push (fun _ => 0) 0xD0000178
      (initialRegisters 0x8048000).words.reverse [] trivial hroom
    rw [List.reverse_reverse, List.append_nil] at hwords
    exact hwords

theorem firstMachine_follows :
    Follows sampleStack [0xD0000100] firstContexts firstMachine where
  list := firstProcess_list
  running := by decide
  idle := by decide
  current := rfl
  cpu := rfl
  saved p hp _ := by
    obtain rfl := List.mem_singleton.1 hp
    exact ⟨_, rfl, rfl⟩
  outer := by decide
  inStack := fun _ => by decide
  placed := {
    bounded := fun p process hprocess => by
      rcases firstProcess_cases hprocess with ⟨rfl, -⟩ | ⟨rfl, -⟩ <;> decide
    outside := fun p process hprocess => by
      rcases firstProcess_cases hprocess with ⟨rfl, -⟩ | ⟨rfl, -⟩ <;> decide
    apart := fun p q process other hp hq hne => by
      rcases firstProcess_cases hp with ⟨rfl, -⟩ | ⟨rfl, -⟩ <;>
        rcases firstProcess_cases hq with ⟨rfl, -⟩ | ⟨rfl, -⟩ <;> omega }
  held := firstMachine_held

/-- What a call leaves behind. -/
def noScratch : Scratch := ⟨0, 0, 0, fun _ => 0⟩

theorem runEvents_own_firstMachine :
    ∃ last, runEvents sampleStack [.interrupt 32 noScratch,
        .run fun cpu => { cpu with ebx := cpu.ebx + 7 }, .interrupt 33 noScratch,
        .interrupt 32 noScratch] firstMachine = .ok last ∧
      last.cpu = (turns [0xD0000100] last.scheduler.currentProcessRunning
        [.interrupt 32 noScratch, .run fun cpu => { cpu with ebx := cpu.ebx + 7 },
          .interrupt 33 noScratch, .interrupt 32 noScratch]
        firstContexts).foldl Cpu.react
          (firstContexts.cpus last.scheduler.currentProcessRunning) := by
  obtain ⟨last, hlast, hcpu, -⟩ := runEvents_own firstMachine_follows
    [.interrupt 32 noScratch, .run fun cpu => { cpu with ebx := cpu.ebx + 7 },
      .interrupt 33 noScratch, .interrupt 32 noScratch]
    (by simp [Event.Returns])
  exact ⟨last, hlast, hcpu⟩

end

end ClOs
