import ClOs.Scheduling
import Mathlib.Logic.Relation

/-!
# The start of the kernel

`kmain` from `init_process` to its idle loop, with ticks of the timer between
any two of its statements.  Its statements run while `process_head` is the
current process.  User processes leave the list of processes alone, so what
they do between two ticks does not appear.
-/

namespace ClOs

namespace Scheduler

/-- A statement of `kmain`, or of `create_process` below it.  Of
`create_process` everything before its loop is one statement, since nothing of
it is seen by `schedule`. -/
inductive KmainStatement
  | initProcess
  | fill
  | startWalk
  | walk
  | linkNext
  | linkPrev
  | check
  deriving DecidableEq

def createProcessStatements : List KmainStatement :=
  [.fill, .startWalk, .walk, .linkNext, .linkPrev, .check]

def kmainStatements : List KmainStatement :=
  .initProcess :: (createProcessStatements ++ createProcessStatements)

/-- The kernel while it starts: the statements `kmain` has still to run, and the
variables `process` and `current_process` of `create_process`. -/
structure Kernel where
  scheduler : Scheduler
  rest : List KmainStatement
  process : ℕ
  currentProcess : ℕ
  panicked : Bool

namespace Kernel

/-- The kernel before `init_process`, in the address space and with the
descriptors it has then. -/
def start (cr3 : ℕ) (vfsFdTable : Option ℕ) : Kernel where
  scheduler := {
    isInitProcess := false
    processHead := 0
    currentProcessRunning := 0
    processes := fun _ => none
    cr3 := cr3
    vfsFdTable := vfsFdTable }
  rest := kmainStatements
  process := 0
  currentProcess := 0
  panicked := false

/-- One statement.  `kmalloc` gives addresses that no process has, and a
`create_process` that returns `NULL` ends in `kernel_panic`. -/
inductive Performs (k : Kernel) (rest : List KmainStatement) :
    KmainStatement → Kernel → Prop
  | initProcess {address : ℕ} (hfresh : k.scheduler.processes address = none)
      (haddress : 0 < address ∧ address < 4294967296) :
      Performs k rest .initProcess
        { k with scheduler := k.scheduler.initProcess address, rest := rest }
  | fill {address pid pageDir : ℕ} {fdTable : Option ℕ} {entryPoint : UInt32}
      (hfresh : k.scheduler.processes address = none)
      (haddress : 0 < address ∧ address < 4294967296) :
      Performs k rest .fill
        { k with
          scheduler := k.scheduler.setProcess address
            (newProcess pid pageDir fdTable entryPoint)
          rest := rest
          process := address }
  | fail : Performs k rest .fill { k with rest := [], panicked := true }
  | startWalk :
      Performs k rest .startWalk
        { k with rest := rest, currentProcess := k.scheduler.processHead }
  | walkOn {process : Process} {next : ℕ}
      (hprocess : k.scheduler.processes k.currentProcess = some process)
      (hnext : process.next = some next) :
      Performs k rest .walk { k with currentProcess := next }
  | walkEnd {process : Process}
      (hprocess : k.scheduler.processes k.currentProcess = some process)
      (hnext : process.next = none) :
      Performs k rest .walk { k with rest := rest }
  | linkNext {linked : Scheduler}
      (hlink : k.scheduler.linkNext k.currentProcess k.process = .ok linked) :
      Performs k rest .linkNext { k with scheduler := linked, rest := rest }
  | linkPrev {linked : Scheduler}
      (hlink : k.scheduler.linkPrev k.currentProcess k.process = .ok linked) :
      Performs k rest .linkPrev { k with scheduler := linked, rest := rest }
  | check : Performs k rest .check { k with rest := rest }

/-- `kmain` goes on while `process_head` is current. -/
def KmainStep (k next : Kernel) : Prop :=
  ∃ statement rest, k.rest = statement :: rest ∧
    k.scheduler.currentProcessRunning = k.scheduler.processHead ∧
    Performs k rest statement next

/-- A tick of the timer, whatever it interrupts. -/
def Tick (k next : Kernel) : Prop :=
  ∃ regs result scheduler,
    k.scheduler.schedule regs = .ok (result, scheduler) ∧
      next = { k with scheduler := scheduler }

/-- Some ticks make `process_head` current. -/
def Recoverable (k : Kernel) : Prop :=
  ∃ later, Relation.ReflTransGen Tick k later ∧
    later.scheduler.currentProcessRunning = later.scheduler.processHead

/-- A tick finds `kmain` at its end, or nothing behind `process_head`. -/
def TickSafe (k : Kernel) : Prop :=
  k.rest = [] ∨ k.scheduler.isInitProcess = false ∨
    ∃ head, k.scheduler.processes k.scheduler.processHead = some head ∧
      head.next = none

/-- A step of `kmain` or a tick. -/
def Step (k next : Kernel) : Prop :=
  KmainStep k next ∨ Tick k next

/-- A step that is no tick between the linking of the first process and the
end of `kmain`. -/
def SafeStep (k next : Kernel) : Prop :=
  KmainStep k next ∨ (Tick k next ∧ k.TickSafe)

/-! ## Where `kmain` is -/

structure RunningList (s : Scheduler) (nodes : List ℕ) : Prop where
  list : ProcessList s nodes
  running : ∀ p ∈ nodes, s.isRunning p = true

/-- `create_process` has filled in a process that is not in the list yet. -/
structure Filled (k : Kernel) (nodes : List ℕ) : Prop where
  list : RunningList k.scheduler nodes
  apart : k.process ∉ k.scheduler.processHead :: nodes
  bounded : k.process < 4294967296
  filled : ∃ process, k.scheduler.processes k.process = some process ∧
    process.next = none ∧ process.state = .running

/-- The statements of some more calls of `create_process`. -/
def creations (n : ℕ) : List KmainStatement :=
  (List.replicate n createProcessStatements).flatten

inductive KmainAt (k : Kernel) : List ℕ → Prop
  | boot (hrest : k.rest = kmainStatements)
      (hinit : k.scheduler.isInitProcess = false)
      (hnone : ∀ p, k.scheduler.processes p = none) : KmainAt k []
  | between {nodes : List ℕ} {n : ℕ} (hlist : RunningList k.scheduler nodes)
      (hcount : nodes.length + n = 2) (hrest : k.rest = creations n) :
      KmainAt k nodes
  | startWalk {nodes : List ℕ} {n : ℕ} (hfilled : Filled k nodes)
      (hcount : nodes.length + n = 1)
      (hrest : k.rest = .startWalk :: .walk :: .linkNext :: .linkPrev ::
        .check :: creations n) : KmainAt k nodes
  | walk {nodes : List ℕ} {n : ℕ} (hfilled : Filled k nodes)
      (hcount : nodes.length + n = 1)
      (hwalk : k.currentProcess ∈ k.scheduler.processHead :: nodes)
      (hrest : k.rest = .walk :: .linkNext :: .linkPrev :: .check ::
        creations n) : KmainAt k nodes
  | linkNext {nodes : List ℕ} {n : ℕ} (hfilled : Filled k nodes)
      (hcount : nodes.length + n = 1)
      (htail : k.currentProcess = tailOf k.scheduler.processHead nodes)
      (hrest : k.rest = .linkNext :: .linkPrev :: .check :: creations n) :
      KmainAt k nodes
  | linkPrev {nodes : List ℕ} {n : ℕ} (hlist : RunningList k.scheduler nodes)
      (hcount : nodes.length + n = 2) (hprocess : k.process ∈ nodes)
      (hrest : k.rest = .linkPrev :: .check :: creations n) : KmainAt k nodes
  | check {nodes : List ℕ} {n : ℕ} (hlist : RunningList k.scheduler nodes)
      (hcount : nodes.length + n = 2)
      (hrest : k.rest = .check :: creations n) : KmainAt k nodes
  | panicked {nodes : List ℕ} (hrest : k.rest = [])
      (hpanicked : k.panicked = true) : KmainAt k nodes

/-- `kmain` has its context, as long as it needs it. -/
structure Kept (k : Kernel) : Prop where
  stage : ∃ nodes, KmainAt k nodes
  current : k.rest ≠ [] →
    k.scheduler.currentProcessRunning = k.scheduler.processHead

section

variable {s next : Scheduler} {nodes : List ℕ} {k later : Kernel}

theorem linkNext_ok
    {tail address : ℕ} (h : s.linkNext tail address = .ok next) :
    ∃ last, s.processes tail = some last ∧
      next = s.setProcess tail { last with next := some address } := by
  unfold Scheduler.linkNext at h
  rw [Outcome.bind_eq_ok] at h
  obtain ⟨last, hlast, h⟩ := h
  simp only [pure, Except.pure, Except.ok.injEq] at h
  exact ⟨last, process_eq_ok.1 hlast, h.symm⟩

theorem linkPrev_ok
    {tail address : ℕ} (h : s.linkPrev tail address = .ok next) :
    ∃ process, s.processes address = some process ∧
      next = s.setProcess address { process with prev := some tail } := by
  unfold Scheduler.linkPrev at h
  rw [Outcome.bind_eq_ok] at h
  obtain ⟨process, hprocess, h⟩ := h
  simp only [pure, Except.pure, Except.ok.injEq] at h
  exact ⟨process, process_eq_ok.1 hprocess, h.symm⟩

theorem Performs.current
    {rest : List KmainStatement} {statement : KmainStatement} {next : Kernel}
    (h : Performs k rest statement next)
    (hcurrent : k.scheduler.currentProcessRunning = k.scheduler.processHead) :
    next.scheduler.currentProcessRunning = next.scheduler.processHead := by
  cases h with
  | initProcess => rfl
  | linkNext hlink =>
      obtain ⟨last, -, rfl⟩ := linkNext_ok hlink
      exact hcurrent
  | linkPrev hlink =>
      obtain ⟨process, -, rfl⟩ := linkPrev_ok hlink
      exact hcurrent
  | fill => exact hcurrent
  | fail => exact hcurrent
  | startWalk => exact hcurrent
  | walkOn => exact hcurrent
  | walkEnd => exact hcurrent
  | check => exact hcurrent

theorem initProcess_list
    {address : ℕ} (haddress : address < 4294967296) :
    RunningList (s.initProcess address) [] where
  list := {
    initialised := rfl
    list := ⟨_, Function.update_self _ _ _, rfl⟩
    nodup := List.nodup_singleton _
    bounded := by
      intro p hp
      rwa [List.mem_singleton.1 hp]
    current := List.mem_singleton_self _ }
  running := by simp

theorem creations_succ (n : ℕ) :
    creations (n + 1) =
      .fill :: .startWalk :: .walk :: .linkNext :: .linkPrev :: .check ::
        creations n := by
  simp [creations, List.replicate_succ, createProcessStatements]

theorem listFrom_walkEnd
    {head current : ℕ} {process : Process} (h : s.ListFrom head nodes)
    (hcurrent : current ∈ head :: nodes)
    (hprocess : s.processes current = some process)
    (hend : process.next = none) : current = tailOf head nodes := by
  induction nodes generalizing head with
  | nil => exact List.mem_singleton.1 hcurrent
  | cons node rest ih =>
      obtain ⟨first, hfirst, hnext, hrest⟩ := h
      rw [tailOf_cons]
      rcases List.mem_cons.1 hcurrent with rfl | hmem
      · rw [hprocess, Option.some.injEq] at hfirst
        rw [← hfirst, hend] at hnext
        cases hnext
      · exact ih hrest hmem

theorem listFrom_walkOn
    {head current node : ℕ} {process : Process} (h : s.ListFrom head nodes)
    (hcurrent : current ∈ head :: nodes)
    (hprocess : s.processes current = some process)
    (hnext : process.next = some node) : node ∈ head :: nodes := by
  induction nodes generalizing head with
  | nil =>
      obtain ⟨last, hlast, hend⟩ := h
      rw [List.mem_singleton.1 hcurrent, hlast, Option.some.injEq] at hprocess
      rw [← hprocess, hend] at hnext
      cases hnext
  | cons second rest ih =>
      obtain ⟨first, hfirst, hsecond, hrest⟩ := h
      rcases List.mem_cons.1 hcurrent with rfl | hmem
      · rw [hprocess, Option.some.injEq] at hfirst
        rw [← hfirst, hnext, Option.some.injEq] at hsecond
        simp [hsecond]
      · exact List.mem_cons_of_mem _ (ih hrest hmem)

theorem RunningList.fill
    (h : RunningList s nodes) {address : ℕ} (process : Process)
    (hfresh : s.processes address = none) :
    address ∉ s.processHead :: nodes ∧
      RunningList (s.setProcess address process) nodes := by
  have hapart : address ∉ s.processHead :: nodes := by
    intro hmem
    obtain ⟨old, hold⟩ := h.list.list.present hmem
    rw [hfresh] at hold
    cases hold
  refine ⟨hapart, h.list.fill process hapart, fun p hp => ?_⟩
  have hne : p ≠ address := by
    rintro rfl
    exact hapart (List.mem_cons_of_mem _ hp)
  rw [← h.running p hp]
  simp [Scheduler.isRunning, Scheduler.setProcess, hne]

theorem Filled.linkNext
    (h : Filled k nodes) {linked : Scheduler}
    (hlink : k.scheduler.linkNext
      (tailOf k.scheduler.processHead nodes) k.process = .ok linked) :
    RunningList linked (nodes ++ [k.process]) := by
  obtain ⟨process, hprocess, hend, hstate⟩ := h.filled
  obtain ⟨last, hlast, hok, hlist⟩ :=
    h.list.list.linkNext hprocess hend h.bounded h.apart
  rw [hok, Except.ok.injEq] at hlink
  subst hlink
  refine ⟨hlist, fun p hp => ?_⟩
  have hrunning : k.scheduler.isRunning p = true := by
    rcases List.mem_append.1 hp with hold | hnew
    · exact h.list.running p hold
    · rw [List.mem_singleton.1 hnew]
      simp [Scheduler.isRunning, hprocess, hstate]
  by_cases hpt : p = tailOf k.scheduler.processHead nodes
  · subst hpt
    simpa [Scheduler.isRunning, Scheduler.setProcess, hlast] using hrunning
  · simpa [Scheduler.isRunning, Scheduler.setProcess, hpt] using hrunning

theorem RunningList.linkPrev
    (h : RunningList s nodes) {tail address : ℕ}
    (hlink : s.linkPrev tail address = .ok next) :
    RunningList next nodes := by
  obtain ⟨process, hprocess, -⟩ := linkPrev_ok hlink
  obtain ⟨hok, hsame⟩ := linkPrev_sameList tail hprocess
  rw [hok, Except.ok.injEq] at hlink
  subst hlink
  refine ⟨hsame.processList h.list h.list.current, fun p hp => ?_⟩
  rw [hsame.isRunning]
  exact h.running p hp

theorem KmainAt.performs
    {rest : List KmainStatement} {statement : KmainStatement} {next : Kernel}
    (h : KmainAt k nodes) (hrest : k.rest = statement :: rest)
    (hperforms : Performs k rest statement next) :
    ∃ after, KmainAt next after := by
  cases h with
  | boot hboot hinit =>
      rw [hboot, kmainStatements, List.cons.injEq] at hrest
      obtain ⟨rfl, rfl⟩ := hrest
      cases hperforms with
      | initProcess hfresh haddress =>
          exact ⟨[], .between (n := 2) (initProcess_list haddress.2) rfl rfl⟩
  | @between _ n hlist hcount hbetween =>
      obtain _ | n := n
      · rw [hbetween] at hrest
        cases hrest
      rw [hbetween, creations_succ, List.cons.injEq] at hrest
      obtain ⟨rfl, rfl⟩ := hrest
      cases hperforms with
      | fill hfresh haddress =>
          obtain ⟨hapart, hfilled⟩ := hlist.fill (newProcess _ _ _ _) hfresh
          exact ⟨nodes, .startWalk (n := n)
            ⟨hfilled, hapart, haddress.2, _, Function.update_self _ _ _,
              rfl, rfl⟩ (by omega) rfl⟩
      | fail => exact ⟨nodes, .panicked rfl rfl⟩
  | startWalk hfilled hcount hstart =>
      rw [hstart, List.cons.injEq] at hrest
      obtain ⟨rfl, rfl⟩ := hrest
      cases hperforms with
      | startWalk =>
          exact ⟨nodes, .walk ⟨hfilled.list, hfilled.apart, hfilled.bounded,
            hfilled.filled⟩ hcount List.mem_cons_self rfl⟩
  | walk hfilled hcount hwalk hwalking =>
      rw [hwalking, List.cons.injEq] at hrest
      obtain ⟨rfl, rfl⟩ := hrest
      cases hperforms with
      | walkOn hprocess hnext =>
          exact ⟨nodes, .walk ⟨hfilled.list, hfilled.apart, hfilled.bounded,
            hfilled.filled⟩ hcount
            (listFrom_walkOn hfilled.list.list.list hwalk hprocess hnext)
            hwalking⟩
      | walkEnd hprocess hnext =>
          exact ⟨nodes, .linkNext ⟨hfilled.list, hfilled.apart,
            hfilled.bounded, hfilled.filled⟩ hcount
            (listFrom_walkEnd hfilled.list.list.list hwalk hprocess hnext)
            rfl⟩
  | linkNext hfilled hcount htail hlinking =>
      rw [hlinking, List.cons.injEq] at hrest
      obtain ⟨rfl, rfl⟩ := hrest
      cases hperforms with
      | linkNext hlink =>
          rw [htail] at hlink
          exact ⟨_, .linkPrev (hfilled.linkNext hlink) (by simp; omega)
            (by simp) rfl⟩
  | linkPrev hlist hcount hprocess hlinking =>
      rw [hlinking, List.cons.injEq] at hrest
      obtain ⟨rfl, rfl⟩ := hrest
      cases hperforms with
      | linkPrev hlink => exact ⟨_, .check (hlist.linkPrev hlink) hcount rfl⟩
  | check hlist hcount hchecking =>
      rw [hchecking, List.cons.injEq] at hrest
      obtain ⟨rfl, rfl⟩ := hrest
      cases hperforms with
      | check => exact ⟨_, .between hlist hcount rfl⟩
  | panicked hpanicked =>
      rw [hpanicked] at hrest
      cases hrest

theorem KmainAt.list
    (h : KmainAt k nodes) (hinit : k.scheduler.isInitProcess = true)
    (hrest : k.rest ≠ []) : RunningList k.scheduler nodes := by
  cases h with
  | boot _ hboot =>
      rw [hinit] at hboot
      cases hboot
  | between hlist => exact hlist
  | startWalk hfilled => exact hfilled.list
  | walk hfilled => exact hfilled.list
  | linkNext hfilled => exact hfilled.list
  | linkPrev hlist => exact hlist
  | check hlist => exact hlist
  | panicked hpanicked => exact absurd hpanicked hrest

section

variable {regs : Registers} {result : Option ℕ}

theorem RunningList.tick
    (h : RunningList s nodes) (hticks : Ticks s regs result next) :
    RunningList next nodes := by
  refine ⟨h.list.tick hticks, fun p hp => ?_⟩
  rw [hticks.list.isRunning]
  exact h.running p hp

theorem Filled.tick
    (h : Filled k nodes) (hticks : Ticks k.scheduler regs result next) :
    Filled { k with scheduler := next } nodes where
  list := h.list.tick hticks
  apart := by
    simp only [hticks.list.head]
    exact h.apart
  bounded := h.bounded
  filled := by
    obtain ⟨process, hprocess, hend, hstate⟩ := h.filled
    obtain ⟨process', hprocess', hstate', hnext⟩ := hticks.list.find hprocess
    exact ⟨process', hprocess', hnext.trans hend, hstate'.trans hstate⟩

theorem KmainAt.tick
    (h : KmainAt k nodes) (hinit : k.scheduler.isInitProcess = true)
    (hticks : Ticks k.scheduler regs result next) :
    KmainAt { k with scheduler := next } nodes := by
  cases h with
  | boot _ hboot =>
      rw [hinit] at hboot
      cases hboot
  | between hlist hcount hrest =>
      exact .between (hlist.tick hticks) hcount hrest
  | startWalk hfilled hcount hrest =>
      exact .startWalk (hfilled.tick hticks) hcount hrest
  | walk hfilled hcount hwalk hrest =>
      refine .walk (hfilled.tick hticks) hcount ?_ hrest
      simp only [hticks.list.head]
      exact hwalk
  | linkNext hfilled hcount htail hrest =>
      refine .linkNext (hfilled.tick hticks) hcount ?_ hrest
      simp only [hticks.list.head]
      exact htail
  | linkPrev hlist hcount hprocess hrest =>
      exact .linkPrev (hlist.tick hticks) hcount hprocess hrest
  | check hlist hcount hrest =>
      exact .check (hlist.tick hticks) hcount hrest
  | panicked hrest hpanicked => exact .panicked hrest hpanicked

/-- Behind the head is nothing just when the head has no successor. -/
theorem RunningList.eq_nil
    (h : RunningList s nodes) {head : Process}
    (hhead : s.processes s.processHead = some head)
    (hend : head.next = none) : nodes = [] := by
  obtain ⟨first, hfirst, hnext⟩ := h.list.list.head
  rw [hhead, Option.some.injEq] at hfirst
  rw [← hfirst, hend] at hnext
  exact List.head?_eq_none_iff.1 hnext.symm

/-- With nothing behind it the head stays current. -/
theorem RunningList.tick_head
    (h : RunningList s []) (hticks : Ticks s regs result next) :
    next.currentProcessRunning = next.processHead :=
  List.mem_singleton.1 (h.tick hticks).list.current

theorem RunningList.tick_behind
    (h : RunningList s nodes) (hne : nodes ≠ [])
    (hschedule : s.schedule regs = .ok (result, next)) :
    next.currentProcessRunning ≠ next.processHead := by
  obtain ⟨p, hp⟩ := List.exists_mem_of_ne_nil nodes hne
  obtain ⟨q, next', hnext, hfind⟩ := h.list.schedule regs ⟨p, hp, h.running p hp⟩
  rw [hschedule, Except.ok.injEq, Prod.mk.injEq] at hnext
  obtain ⟨rfl, rfl⟩ := hnext
  have hticks := schedule_ticks h.list.initialised hschedule
  have hmem : q ∈ nodes := mem_following.1 (List.mem_of_find?_eq_some hfind)
  rw [hticks.list.head, ← (hticks.resumed q rfl).1]
  rintro rfl
  exact (List.nodup_cons.1 h.list.nodup).1 hmem

end

theorem RunningList.lost
    (h : RunningList k.scheduler nodes) (hne : nodes ≠ [])
    (hcurrent : k.scheduler.currentProcessRunning ≠ k.scheduler.processHead) :
    ¬ k.Recoverable := by
  rintro ⟨later, hticks, hlater⟩
  have hkept : RunningList later.scheduler nodes ∧
      later.scheduler.currentProcessRunning ≠
        later.scheduler.processHead := by
    clear hlater
    induction hticks with
    | refl => exact ⟨h, hcurrent⟩
    | tail _ htick ih =>
        obtain ⟨regs, result, scheduler, hschedule, rfl⟩ := htick
        have hone := schedule_ticks ih.1.list.initialised hschedule
        exact ⟨ih.1.tick hone, ih.1.tick_behind hne hschedule⟩
  exact hkept.2 hlater

theorem Kept.tick
    (h : Kept k) (htick : Tick k later) (hsafe : k.TickSafe) : Kept later := by
  obtain ⟨nodes, hat⟩ := h.stage
  obtain ⟨regs, result, scheduler, hschedule, rfl⟩ := htick
  by_cases hinit : k.scheduler.isInitProcess = true
  · have hticks := schedule_ticks hinit hschedule
    refine ⟨⟨nodes, hat.tick hinit hticks⟩, fun hrest => ?_⟩
    have hlist := hat.list hinit hrest
    rcases hsafe with hdone | hboot | ⟨head, hhead, hend⟩
    · exact absurd hdone hrest
    · rw [hinit] at hboot
      cases hboot
    · rw [hlist.eq_nil hhead hend] at hlist
      exact hlist.tick_head hticks
  · rw [Bool.not_eq_true] at hinit
    unfold Scheduler.schedule at hschedule
    rw [if_pos hinit] at hschedule
    simp only [pure, Except.pure, Except.ok.injEq, Prod.mk.injEq] at hschedule
    obtain ⟨-, rfl⟩ := hschedule
    exact h

theorem Kept.step
    (h : Kept k) (hstep : SafeStep k later) : Kept later := by
  rcases hstep with hkmain | ⟨htick, hsafe⟩
  · obtain ⟨nodes, hat⟩ := h.stage
    obtain ⟨statement, rest, hrest, hcurrent, hperforms⟩ := hkmain
    exact ⟨hat.performs hrest hperforms, fun _ => hperforms.current hcurrent⟩
  · exact h.tick htick hsafe

theorem start_kept (cr3 : ℕ) (vfsFdTable : Option ℕ) :
    Kept (start cr3 vfsFdTable) where
  stage := ⟨[], .boot rfl rfl fun _ => rfl⟩
  current := fun _ => rfl

theorem SafeRun.kept
    {cr3 : ℕ} {vfsFdTable : Option ℕ}
    (hrun : Relation.ReflTransGen SafeStep (start cr3 vfsFdTable) k) :
    Kept k := by
  induction hrun with
  | refl => exact start_kept cr3 vfsFdTable
  | tail _ hstep ih => exact ih.step hstep

/-- A statement that is to come can be run. -/
theorem Kept.runs (h : Kept k) (hrest : k.rest ≠ []) :
    ∃ later, KmainStep k later := by
  obtain ⟨nodes, hat⟩ := h.stage
  have hcurrent := h.current hrest
  cases hat with
  | boot hboot _ hnone =>
      exact ⟨_, _, _, hboot, hcurrent,
        .initProcess (hnone 0xD0000020) (by decide)⟩
  | @between _ n hlist hcount hbetween =>
      obtain _ | n := n
      · exact absurd hbetween hrest
      · exact ⟨_, _, _, hbetween.trans (creations_succ n), hcurrent, .fail⟩
  | startWalk hfilled hcount hstart =>
      exact ⟨_, _, _, hstart, hcurrent, .startWalk⟩
  | walk hfilled hcount hwalk hwalking =>
      obtain ⟨process, hprocess⟩ := hfilled.list.list.list.present hwalk
      cases hnext : process.next with
      | none => exact ⟨_, _, _, hwalking, hcurrent, .walkEnd hprocess hnext⟩
      | some node =>
          exact ⟨_, _, _, hwalking, hcurrent, .walkOn hprocess hnext⟩
  | linkNext hfilled hcount htail hlinking =>
      obtain ⟨process, hprocess, hend, -⟩ := hfilled.filled
      obtain ⟨last, -, hok, -⟩ := hfilled.list.list.linkNext hprocess hend
        hfilled.bounded hfilled.apart
      rw [← htail] at hok
      exact ⟨_, _, _, hlinking, hcurrent, .linkNext hok⟩
  | linkPrev hlist hcount hprocess hlinking =>
      obtain ⟨process, hfound⟩ :=
        hlist.list.list.present (List.mem_cons_of_mem _ hprocess)
      exact ⟨_, _, _, hlinking, hcurrent,
        .linkPrev (linkPrev_sameList k.currentProcess hfound).1⟩
  | check hlist hcount hchecking =>
      exact ⟨_, _, _, hchecking, hcurrent, .check⟩
  | panicked hpanicked => exact absurd hpanicked hrest

theorem KmainAt.done
    (h : KmainAt k nodes) (hrest : k.rest = []) :
    k.panicked = true ∨
      ∃ first second, ProcessList k.scheduler [first, second] := by
  cases h with
  | boot hboot =>
      rw [hrest] at hboot
      cases hboot
  | @between _ n hlist hcount hbetween =>
      obtain _ | n := n
      · obtain ⟨first, second, rfl⟩ := List.length_eq_two.1 hcount
        exact .inr ⟨first, second, hlist.list⟩
      · rw [hrest, creations_succ] at hbetween
        cases hbetween
  | startWalk _ _ hstart => simp [hrest] at hstart
  | walk _ _ _ hwalking => simp [hrest] at hwalking
  | linkNext _ _ _ hlinking => simp [hrest] at hlinking
  | linkPrev _ _ _ hlinking => simp [hrest] at hlinking
  | check _ _ hchecking => simp [hrest] at hchecking
  | panicked _ hpanicked => exact .inl hpanicked

theorem Kept.tick_recoverable_iff
    (h : Kept k) (hrest : k.rest ≠ []) (htick : Tick k later) :
    later.Recoverable ↔ k.TickSafe := by
  constructor
  · intro hrecoverable
    by_contra hunsafe
    obtain ⟨nodes, hat⟩ := h.stage
    have hinit : k.scheduler.isInitProcess = true := by
      rw [← Bool.not_eq_false]
      exact fun hboot => hunsafe (.inr (.inl hboot))
    have hlist := hat.list hinit hrest
    obtain ⟨regs, result, scheduler, hschedule, rfl⟩ := htick
    have hne : nodes ≠ [] := by
      rintro rfl
      exact hunsafe (.inr (.inr hlist.list.list))
    exact (hlist.tick (schedule_ticks hinit hschedule)).lost
      (k := { k with scheduler := scheduler }) hne
      (hlist.tick_behind hne hschedule) hrecoverable
  · intro hsafe
    obtain ⟨regs, result, scheduler, hschedule, rfl⟩ := htick
    exact ⟨_, .refl,
      (h.tick ⟨regs, result, scheduler, hschedule, rfl⟩ hsafe).current hrest⟩

/-- As long as no tick comes between the linking of the first process and the
end of `kmain`, its context is kept and it creates both processes.  A tick at
that time loses its context for good. -/
theorem kmain_recoverable
    {cr3 : ℕ} {vfsFdTable : Option ℕ}
    (hrun : Relation.ReflTransGen SafeStep (start cr3 vfsFdTable) k) :
    (k.rest ≠ [] →
      k.Recoverable ∧ (∃ later, KmainStep k later) ∧
      ∀ later, Tick k later → (later.Recoverable ↔ k.TickSafe)) ∧
    (k.rest = [] → k.panicked = true ∨
      ∃ first second, ProcessList k.scheduler [first, second]) := by
  have h := SafeRun.kept hrun
  refine ⟨fun hrest => ⟨⟨k, .refl, h.current hrest⟩, h.runs hrest,
    fun later htick => h.tick_recoverable_iff hrest htick⟩, fun hrest => ?_⟩
  obtain ⟨nodes, hat⟩ := h.stage
  exact hat.done hrest

/-- `kmain` runs to its end, with a tick behind `init_process` and one behind its last
statement.  Its context is there when the first process has just been linked, and
both processes are in the list at the end. -/
theorem kmain_recoverable_bothCreated :
    ∃ mid later, Relation.ReflTransGen SafeStep (start 0x101000 none) mid ∧
      mid.rest ≠ [] ∧ mid.Recoverable ∧
      Relation.ReflTransGen SafeStep (start 0x101000 none) later ∧
      later.rest = [] ∧
      ∃ first second, ProcessList later.scheduler [first, second] := by
  have hfirst := Relation.ReflTransGen.refl (r := SafeStep)
    (a := start 0x101000 none)
    |>.tail (.inl ⟨_, _, rfl, rfl,
      @Performs.initProcess _ _ 0xD0000020 rfl ⟨by decide, by decide⟩⟩)
    |>.tail (.inr ⟨⟨.zero, _, _, by with_unfolding_all rfl, rfl⟩,
      .inr (.inr ⟨_, rfl, rfl⟩)⟩)
    |>.tail (.inl ⟨_, _, rfl, rfl, @Performs.fill _ _ 0xD0000100 1 0xC0201000 none
      0x8048000 rfl ⟨by decide, by decide⟩⟩)
    |>.tail (.inl ⟨_, _, rfl, rfl, .startWalk⟩)
    |>.tail (.inl ⟨_, _, rfl, rfl, .walkEnd rfl rfl⟩)
    |>.tail (.inl ⟨_, _, rfl, rfl, .linkNext rfl⟩)
  have hall := hfirst
    |>.tail (.inl ⟨_, _, rfl, rfl, .linkPrev rfl⟩)
    |>.tail (.inl ⟨_, _, rfl, rfl, .check⟩)
    |>.tail (.inl ⟨_, _, rfl, rfl, @Performs.fill _ _ 0xD0000200 2 0xC0202000 none
      0x8048000 rfl ⟨by decide, by decide⟩⟩)
    |>.tail (.inl ⟨_, _, rfl, rfl, .startWalk⟩)
    |>.tail (.inl ⟨_, _, rfl, rfl, .walkOn rfl rfl⟩)
    |>.tail (.inl ⟨_, _, rfl, rfl, .walkEnd rfl rfl⟩)
    |>.tail (.inl ⟨_, _, rfl, rfl, .linkNext rfl⟩)
    |>.tail (.inl ⟨_, _, rfl, rfl, .linkPrev rfl⟩)
    |>.tail (.inl ⟨_, _, rfl, rfl, .check⟩)
    |>.tail (.inr ⟨⟨.zero, _, _, by with_unfolding_all rfl, rfl⟩, .inl rfl⟩)
  refine ⟨_, _, hfirst, by simp, ((kmain_recoverable hfirst).1 (by simp)).1,
    hall, rfl, ?_⟩
  exact ((kmain_recoverable hall).2 rfl).resolve_left Bool.false_ne_true

/-- `kmain` up to the linking of the first process. -/
theorem kmain_linksFirst (cr3 : ℕ) (vfsFdTable : Option ℕ) :
    ∃ k, Relation.ReflTransGen Step (start cr3 vfsFdTable) k ∧
      RunningList k.scheduler [0xD0000100] ∧ k.rest ≠ [] := by
  have hboot : RunningList
      ((start cr3 vfsFdTable).scheduler.initProcess 0xD0000020) [] :=
    initProcess_list (by decide)
  have hfresh : ((start cr3 vfsFdTable).scheduler.initProcess
      0xD0000020).processes 0xD0000100 = none := rfl
  obtain ⟨hapart, hfill⟩ := hboot.fill
    (newProcess 1 0xC0201000 (some 0xD0000400) 0x8048000) hfresh
  have hbounded : 0xD0000100 < 4294967296 := by decide
  have hfilled : Filled {
      scheduler := ((start cr3 vfsFdTable).scheduler.initProcess
        0xD0000020).setProcess 0xD0000100
          (newProcess 1 0xC0201000 (some 0xD0000400) 0x8048000)
      rest := .linkNext :: .linkPrev :: .check :: creations 1
      process := 0xD0000100
      currentProcess := 0xD0000020
      panicked := false } [] :=
    ⟨hfill, hapart, hbounded, newProcess 1 0xC0201000 (some 0xD0000400)
      0x8048000, rfl, rfl, rfl⟩
  obtain ⟨last, hlast, hlink, -⟩ := hfill.list.linkNext
    (Function.update_self _ _ _) rfl hbounded hapart
  have hrun := Relation.ReflTransGen.refl (r := Step)
    (a := start cr3 vfsFdTable)
    |>.tail (.inl ⟨_, _, rfl, rfl, .initProcess rfl ⟨by decide, by decide⟩⟩)
    |>.tail (.inl ⟨_, _, rfl, rfl, .fill rfl ⟨by decide, by decide⟩⟩)
    |>.tail (.inl ⟨_, _, rfl, rfl, .startWalk⟩)
    |>.tail (.inl ⟨_, _, rfl, rfl, .walkEnd rfl rfl⟩)
    |>.tail (.inl ⟨_, _, rfl, rfl, .linkNext hlink⟩)
  exact ⟨_, hrun, hfilled.linkNext hlink, List.cons_ne_nil _ _⟩

/-- A tick just after the linking of the first process. -/
theorem kmain_lost :
    ∃ k, Relation.ReflTransGen Step (start 0x101000 none) k ∧ k.rest ≠ [] ∧
      ¬ k.Recoverable := by
  obtain ⟨k, hrun, hlist, hrest⟩ := kmain_linksFirst 0x101000 none
  obtain ⟨q, scheduler, hschedule, -⟩ := hlist.list.schedule .zero
    ⟨_, List.mem_singleton_self _, hlist.running _ (List.mem_singleton_self _)⟩
  have hticks := schedule_ticks hlist.list.initialised hschedule
  have hne : [0xD0000100] ≠ ([] : List ℕ) := List.cons_ne_nil _ _
  exact ⟨{ k with scheduler := scheduler },
    hrun.tail (.inr ⟨.zero, some q, scheduler, hschedule, rfl⟩), hrest,
    (hlist.tick hticks).lost hne (hlist.tick_behind hne hschedule)⟩

end

end Kernel

end Scheduler

end ClOs
