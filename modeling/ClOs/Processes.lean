import ClOs.PageTables
import Mathlib.Data.List.Rotate
import Mathlib.Data.List.TakeWhile

/-!
# Processes

The process list of `process.c`: `init_process`, the end of `create_process`
and `schedule`.  Processes are named by the addresses `kmalloc` gave them, and
a pointer to something else is reported as a halt.  Addresses have 32 bits, so
a loop over the list that takes more steps than there are addresses is endless.
-/

namespace ClOs

structure Registers where
  cr2 : UInt32
  ds : UInt32
  edi : UInt32
  esi : UInt32
  ebp : UInt32
  esp : UInt32
  ebx : UInt32
  edx : UInt32
  ecx : UInt32
  eax : UInt32
  intruptNumber : UInt32
  errorCode : UInt32
  eip : UInt32
  csm : UInt32
  eflags : UInt32
  useresp : UInt32
  ss : UInt32
  deriving DecidableEq

/-- `memset` to 0. -/
def Registers.zero : Registers :=
  ⟨0, 0, 0, 0, 0, 0, 0, 0, 0, 0, 0, 0, 0, 0, 0, 0, 0⟩

inductive ProcState
  | ready
  | running
  | blocked
  | terminated
  | idle
  deriving DecidableEq

/-- A `process_t` without its name. -/
structure Process where
  pid : ℕ
  state : ProcState
  pageDir : ℕ
  fdTable : Option ℕ
  entryPoint : UInt32
  regs : Registers
  next : Option ℕ
  prev : Option ℕ

/-- The static data of `process.c`, the processes by their addresses, and what
`schedule` switches: CR3 and `vfs_fd_table`. -/
structure Scheduler where
  isInitProcess : Bool
  processHead : ℕ
  currentProcessRunning : ℕ
  processes : ℕ → Option Process
  cr3 : ℕ
  vfsFdTable : Option ℕ

namespace Scheduler

/-- The process behind a pointer. -/
def process (s : Scheduler) (address : ℕ) : Outcome Process :=
  match s.processes address with
  | none => .error .outOfBounds
  | some process => .ok process

def setProcess (s : Scheduler) (address : ℕ) (process : Process) : Scheduler :=
  { s with
    processes := Function.update s.processes address (some process) }

/-- Every process has an address of its own. -/
@[irreducible] def processFuel : ℕ := 4294967296

/-! ## Creation -/

/-- `init_process` with the address that `kmalloc` gives. -/
def initProcess (s : Scheduler) (address : ℕ) : Scheduler :=
  { s.setProcess address {
      pid := 0
      state := .idle
      pageDir := 0
      fdTable := none
      entryPoint := 0
      regs := .zero
      next := none
      prev := none } with
    processHead := address
    currentProcessRunning := address
    isInitProcess := true }

def initialRegisters (entryPoint : UInt32) : Registers :=
  { Registers.zero with
    eip := entryPoint
    csm := 0x1B
    eflags := 0x202
    ds := 0x23
    ss := 0x23
    useresp := UInt32.ofNat (stackElfStart + 0x1000)
    esp := UInt32.ofNat (stackElfStart + 0x1000) }

/-- The process that `create_process` fills in. -/
def newProcess (pid pageDir : ℕ) (fdTable : Option ℕ)
    (entryPoint : UInt32) : Process where
  pid := pid
  state := .running
  pageDir := pageDir
  fdTable := fdTable
  entryPoint := entryPoint
  regs := initialRegisters entryPoint
  next := none
  prev := none

/-- The loop of `create_process` that finds the end of the list. -/
def findTail (s : Scheduler) : ℕ → ℕ → Outcome ℕ
  | 0, _ => .error .endless
  | fuel + 1, current => do
      match (← s.process current).next with
      | some next => findTail s fuel next
      | none => return current

def linkNext (s : Scheduler) (tail address : ℕ) : Outcome Scheduler := do
  let last ← s.process tail
  return s.setProcess tail { last with next := some address }

def linkPrev (s : Scheduler) (tail address : ℕ) : Outcome Scheduler := do
  let process ← s.process address
  return s.setProcess address { process with prev := some tail }

/-- The end of `create_process`: a process that has been filled in is put at
the end of the list. -/
def appendProcess (s : Scheduler) (address : ℕ) (process : Process) :
    Outcome Scheduler := do
  let filled := s.setProcess address process
  let tail ← filled.findTail processFuel filled.processHead
  let linked ← filled.linkNext tail address
  linked.linkPrev tail address

/-! ## Selection -/

/-- One round of the loop of `schedule`: where `current_process_running` moves,
and whether the loop is left by `break`. -/
def advance (s : Scheduler) (current : ℕ) : Outcome (ℕ × Bool) := do
  match (← s.process current).next with
  | some next => return (next, false)
  | none =>
      match (← s.process s.processHead).next with
      | some first => return (first, false)
      | none => return (s.processHead, true)

/-- The loop of `schedule`. -/
def selectFrom (s : Scheduler) (start : ℕ) : ℕ → ℕ → Outcome ℕ
  | 0, _ => .error .endless
  | fuel + 1, current => do
      let (next, left) ← s.advance current
      if left then return next
      else if (← s.process next).state ≠ .running ∧ next ≠ start then
        selectFrom s start fuel next
      else return next

/-- The end of `schedule`: the switch to the process that was selected, unless
it is not running. -/
def switchTo (s : Scheduler) (selected : ℕ) :
    Outcome (Option ℕ × Scheduler) := do
  let process ← s.process selected
  if process.state = .running then
    return (some selected, { s with
      currentProcessRunning := selected
      cr3 := sub32 process.pageDir Memory.kernelStart
      vfsFdTable := process.fdTable })
  else return (none, { s with currentProcessRunning := selected })

/-- The `memcpy` of `schedule`. -/
def saveRegisters (s : Scheduler) (running : Process) (regs : Registers) :
    Scheduler :=
  s.setProcess s.currentProcessRunning { running with regs := regs }

/-- `schedule`.  The result is the process whose saved registers are returned,
or nothing where the argument is. -/
def schedule (s : Scheduler) (regs : Registers) :
    Outcome (Option ℕ × Scheduler) :=
  if s.isInitProcess = false then return (none, s)
  else do
    let running ← s.process s.currentProcessRunning
    let saved := s.saveRegisters running regs
    let selected ← saved.selectFrom s.currentProcessRunning processFuel
      s.currentProcessRunning
    saved.switchTo selected

/-! ## The list -/

def isRunning (s : Scheduler) (address : ℕ) : Bool :=
  (s.processes address).any (fun process => process.state = .running)

def ListFrom (s : Scheduler) : ℕ → List ℕ → Prop
  | address, [] => ∃ process, s.processes address = some process ∧
      process.next = none
  | address, node :: rest => ∃ process, s.processes address = some process ∧
      process.next = some node ∧ s.ListFrom node rest

/-- `nodes` are the processes behind `process_head`, and the current one is
among them or the head. -/
structure ProcessList (s : Scheduler) (nodes : List ℕ) : Prop where
  initialised : s.isInitProcess = true
  list : s.ListFrom s.processHead nodes
  nodup : (s.processHead :: nodes).Nodup
  bounded : ∀ p ∈ s.processHead :: nodes, p < 4294967296
  current : s.currentProcessRunning ∈ s.processHead :: nodes

/-- The processes behind another one in cyclic order, itself at the end. -/
def following (nodes : List ℕ) (current : ℕ) : List ℕ :=
  (nodes.dropWhile (· ≠ current)).tail ++ nodes.takeWhile (· ≠ current) ++
    (if current ∈ nodes then [current] else [])

/-! ## Cyclic order -/

theorem following_of_notMem
    {nodes : List ℕ} {current : ℕ} (h : current ∉ nodes) :
    following nodes current = nodes := by
  have hall : ∀ p ∈ nodes, decide (p ≠ current) = true := by
    intro p hp
    have hne : p ≠ current := fun heq => h (heq ▸ hp)
    simpa using hne
  rw [following, List.dropWhile_eq_nil_iff.2 (by simpa using hall),
    List.takeWhile_eq_self_iff.2 hall, if_neg h]
  simp

theorem following_append
    {front back : List ℕ} {current : ℕ} (h : current ∉ front) :
    following (front ++ current :: back) current =
      back ++ front ++ [current] := by
  have hall : ∀ p ∈ front, decide (p ≠ current) = true := by
    intro p hp
    have hne : p ≠ current := fun heq => h (heq ▸ hp)
    simpa using hne
  rw [following, List.dropWhile_append_of_pos hall,
    List.takeWhile_append_of_pos hall, if_pos (by simp)]
  simp

/-- The cyclic order begins somewhere else in the list. -/
theorem following_isRotated (nodes : List ℕ) (current : ℕ) :
    (following nodes current).IsRotated nodes := by
  by_cases h : current ∈ nodes
  · obtain ⟨front, back, rfl, hfront⟩ := List.eq_append_cons_of_mem h
    rw [following_append hfront, List.append_assoc]
    have hswap : (back ++ (front ++ [current])).IsRotated
        ((front ++ [current]) ++ back) := List.isRotated_append
    simpa using hswap
  · rw [following_of_notMem h]

theorem isRotated_filter
    {first second : List ℕ} (h : first.IsRotated second) (test : ℕ → Bool) :
    (first.filter test).IsRotated (second.filter test) := by
  obtain ⟨n, hn, rfl⟩ := List.isRotated_iff_mod.1 h
  rw [List.rotate_eq_drop_append_take hn, List.filter_append]
  have hsplit : first.filter test =
      (first.take n).filter test ++ (first.drop n).filter test := by
    rw [← List.filter_append, List.take_append_drop]
  rw [hsplit]
  exact List.isRotated_append

theorem mem_following {nodes : List ℕ} {current p : ℕ} :
    p ∈ following nodes current ↔ p ∈ nodes :=
  (following_isRotated nodes current).perm.mem_iff

theorem following_nodup
    {nodes : List ℕ} (hnodup : nodes.Nodup) (current : ℕ) :
    (following nodes current).Nodup :=
  (following_isRotated nodes current).perm.nodup_iff.2 hnodup

/-- Going on to the next process turns the order by one. -/
theorem following_next
    {nodes rest : List ℕ} {current q : ℕ} (hnodup : nodes.Nodup)
    (h : following nodes current = q :: rest) :
    following nodes q = rest ++ [q] := by
  by_cases hcurrent : current ∈ nodes
  · obtain ⟨front, back, rfl, hfront⟩ :=
      List.eq_append_cons_of_mem hcurrent
    rw [following_append hfront] at h
    cases back with
    | nil =>
        cases front with
        | nil =>
            simp only [List.nil_append, List.cons.injEq] at h
            obtain ⟨rfl, rfl⟩ := h
            simp [following]
        | cons first front =>
            simp only [List.nil_append, List.cons_append,
              List.cons.injEq] at h
            obtain ⟨rfl, rfl⟩ := h
            have hmoved := @following_append [] (front ++ [current]) first
              List.not_mem_nil
            simpa using hmoved
    | cons first back =>
        simp only [List.cons_append, List.cons.injEq] at h
        obtain ⟨rfl, rfl⟩ := h
        have hnot : first ∉ front ++ [current] := by
          intro hmem
          have hsplit : front ++ current :: first :: back =
              (front ++ [current]) ++ first :: back := by simp
          rw [hsplit] at hnodup
          exact (List.disjoint_of_nodup_append hnodup) hmem
            List.mem_cons_self
        have hmoved := @following_append (front ++ [current]) back first hnot
        simpa using hmoved
  · rw [following_of_notMem hcurrent] at h
    subst h
    have hmoved := @following_append [] rest q List.not_mem_nil
    simpa using hmoved

theorem following_split
    {nodes front back : List ℕ} {current q : ℕ} (hnodup : nodes.Nodup)
    (h : following nodes current = front ++ q :: back) :
    following nodes q = back ++ front ++ [q] := by
  induction front generalizing current back with
  | nil => simpa using following_next hnodup h
  | cons p front ih =>
      have hmoved := following_next hnodup h
      have hih := @ih (back ++ [p]) p (by simpa using hmoved)
      simpa using hih

/-- The current process comes last. -/
theorem notMem_of_following
    {nodes front back : List ℕ} {current q : ℕ} (hnodup : nodes.Nodup)
    (h : following nodes current = front ++ q :: back) :
    current ∉ front := by
  intro hmem
  have hnodes : current ∈ nodes := by
    rw [← @mem_following nodes current, h]
    exact List.mem_append_left _ hmem
  have hdisjoint := following_nodup hnodup current
  have hlast : (following nodes current).getLast? = some current := by
    simp [following, hnodes]
  rw [h] at hdisjoint hlast
  have hback : current ∈ q :: back := by
    rw [List.getLast?_append_of_ne_nil _ (by simp)] at hlast
    exact List.mem_of_getLast? hlast
  exact List.disjoint_of_nodup_append hdisjoint hmem hback

end Scheduler

end ClOs
