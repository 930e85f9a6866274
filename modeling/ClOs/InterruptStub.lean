import ClOs.Disk
import ClOs.Scheduling
import ClOs.WordStacks

/-!
# The interrupt stubs

`isr.s` saves the registers on the kernel stack, calls `isr_handler` and loads the
registers again from where the result points to: its own stack or a process.  This
file has the instructions of the stubs, the processor's part of an interrupt and
`isr_handler` on the memory of the kernel.  What the keyboard and the system calls
do elsewhere is not part of that memory.
-/

namespace ClOs

open ByteStore

/-! ## The processor -/

/-- The registers that an interrupted program has to find again. -/
structure Cpu where
  eax : UInt32
  ecx : UInt32
  edx : UInt32
  ebx : UInt32
  esp : UInt32
  ebp : UInt32
  esi : UInt32
  edi : UInt32
  eip : UInt32
  eflags : UInt32
  cs : UInt16
  ss : UInt16
  ds : UInt16
  es : UInt16
  fs : UInt16
  gs : UInt16
  deriving DecidableEq

/-- Code outside the kernel. -/
def Cpu.Outer (c : Cpu) : Prop := c.cs &&& 3 = 3

instance (c : Cpu) : Decidable c.Outer := inferInstanceAs (Decidable (_ = _))

structure Machine where
  cpu : Cpu
  cr2 : UInt32
  memory : ByteStore
  scheduler : Scheduler

/-- `stack_bottom` and `stack_top`, which is `esp0` of the task state segment. -/
structure KernelStack where
  bottom : ℕ
  top : UInt32
  size : top.toNat = bottom + 16384 * 8
  limit : top.toNat + 8 ≤ 4294967296

/-- What a call of a function leaves in the registers and in the memory below the
stack pointer that are not to be relied on. -/
structure Scratch where
  ecx : UInt32
  edx : UInt32
  eflags : UInt32
  bytes : ByteStore

/-! ## The handler -/

def loadRegisters (memory : ByteStore) (address : ℕ) : Registers where
  cr2 := memory.word address
  ds := memory.word (address + 4)
  edi := memory.word (address + 8)
  esi := memory.word (address + 12)
  ebp := memory.word (address + 16)
  esp := memory.word (address + 20)
  ebx := memory.word (address + 24)
  edx := memory.word (address + 28)
  ecx := memory.word (address + 32)
  eax := memory.word (address + 36)
  intruptNumber := memory.word (address + 40)
  errorCode := memory.word (address + 44)
  eip := memory.word (address + 48)
  csm := memory.word (address + 52)
  eflags := memory.word (address + 56)
  useresp := memory.word (address + 60)
  ss := memory.word (address + 64)

def regsAddress (process : ℕ) : ℕ := process + 52

def scheduleInMemory (regs : UInt32) (memory : ByteStore) (s : Scheduler) :
    Outcome (UInt32 × ByteStore × Scheduler) := do
  let (result, next) ← s.schedule (loadRegisters memory regs.toNat)
  let saved :=
    if s.isInitProcess = false then memory
    else memory.blit (regsAddress s.currentProcessRunning)
      (memory.drop regs.toNat) 68
  match result with
  | some process => return (UInt32.ofNat (regsAddress process), saved, next)
  | none => return (regs, saved, next)

def isrHandler (regs : UInt32) (memory : ByteStore) (s : Scheduler) :
    Outcome (UInt32 × ByteStore × Scheduler) :=
  let number := (loadRegisters memory regs.toNat).intruptNumber
  if number < 32 then .error .kernelPanic
  else if number = 0x80 then .ok (regs, memory, s)
  else if number = 33 then .ok (regs, memory, s)
  else if number = 32 then scheduleInMemory regs memory s
  else .ok (regs, memory, s)

/-! ## The instructions -/

inductive Segment
  | ds
  | es
  | fs
  | gs

inductive Instr
  | cli
  | push (value : UInt32)
  | pusha
  | movEaxDs
  | movEaxCr2
  | pushEax
  | movAx (value : UInt16)
  | movSegmentAx (segment : Segment)
  | pushEsp
  | callIsrHandler
  | addEsp (value : UInt32)
  | movEspEax
  | popEax
  | popa
  | iret

namespace Machine

def push (m : Machine) (value : UInt32) : Machine :=
  { m with
    cpu := { m.cpu with esp := m.cpu.esp - 4 }
    memory := m.memory.putWord (m.cpu.esp - 4).toNat value }

def top (m : Machine) (distance : UInt32) : UInt32 :=
  m.memory.word (m.cpu.esp + distance).toNat

def setEax (m : Machine) (value : UInt32) : Machine :=
  { m with cpu := { m.cpu with eax := value } }

def setEsp (m : Machine) (value : UInt32) : Machine :=
  { m with cpu := { m.cpu with esp := value } }

def setSegment (m : Machine) (value : UInt16) : Segment → Machine
  | .ds => { m with cpu := { m.cpu with ds := value } }
  | .es => { m with cpu := { m.cpu with es := value } }
  | .fs => { m with cpu := { m.cpu with fs := value } }
  | .gs => { m with cpu := { m.cpu with gs := value } }

def pusha (m : Machine) : Machine :=
  [m.cpu.eax, m.cpu.ecx, m.cpu.edx, m.cpu.ebx, m.cpu.esp, m.cpu.ebp, m.cpu.esi,
    m.cpu.edi].foldl push m

/-- `popa`, which skips the stack pointer. -/
def popa (m : Machine) : Machine :=
  { m with
    cpu := { m.cpu with
      edi := m.top 0
      esi := m.top 4
      ebp := m.top 8
      ebx := m.top 16
      edx := m.top 20
      ecx := m.top 24
      eax := m.top 28
      esp := m.cpu.esp + 32 } }

/-- `iret`, which loads the outer stack when it leaves the kernel. -/
def iret (m : Machine) : Machine :=
  let inner := { m.cpu with
    eip := m.top 0
    cs := (m.top 4).toUInt16
    eflags := m.top 8
    esp := m.cpu.esp + 12 }
  if inner.Outer then
    { m with cpu := { inner with esp := m.top 12, ss := (m.top 16).toUInt16 } }
  else { m with cpu := inner }

/-- `call isr_handler`, which leaves its argument on the stack. -/
def callIsrHandler (m : Machine) (stack : KernelStack) (scratch : Scratch) :
    Outcome Machine := do
  let (regs, memory, scheduler) ← isrHandler (m.top 0) m.memory m.scheduler
  return { m with
    cpu := { m.cpu with
      eax := regs
      ecx := scratch.ecx
      edx := scratch.edx
      eflags := scratch.eflags }
    memory := memory.blit stack.bottom scratch.bytes
      (m.cpu.esp.toNat - stack.bottom)
    scheduler := scheduler }

end Machine

def Instr.exec (stack : KernelStack) (scratch : Scratch) (m : Machine) :
    Instr → Outcome Machine
  | cli => .ok { m with
      cpu := { m.cpu with eflags := m.cpu.eflags &&& ~~~0x200 } }
  | push value => .ok (m.push value)
  | pusha => .ok m.pusha
  | movEaxDs => .ok (m.setEax m.cpu.ds.toUInt32)
  | movEaxCr2 => .ok (m.setEax m.cr2)
  | pushEax => .ok (m.push m.cpu.eax)
  | movAx value => .ok
      (m.setEax (m.cpu.eax &&& 0xFFFF0000 ||| value.toUInt32))
  | movSegmentAx segment => .ok (m.setSegment m.cpu.eax.toUInt16 segment)
  | pushEsp => .ok (m.push m.cpu.esp)
  | callIsrHandler => m.callIsrHandler stack scratch
  | addEsp value => .ok (m.setEsp (m.cpu.esp + value))
  | movEspEax => .ok (m.setEsp m.cpu.eax)
  | popEax => .ok ((m.setEax (m.top 0)).setEsp (m.cpu.esp + 4))
  | popa => .ok m.popa
  | iret => .ok m.iret

def execAll (stack : KernelStack) (scratch : Scratch) :
    List Instr → Machine → Outcome Machine
  | [], m => .ok m
  | instr :: rest, m => do execAll stack scratch rest (← instr.exec stack scratch m)

/-! ## The stubs -/

/-- `isr_common_stub` up to the call. -/
def isrSave : List Instr :=
  [.pusha, .movEaxDs, .pushEax, .movEaxCr2, .pushEax, .movAx 0x10,
    .movSegmentAx .ds, .movSegmentAx .es, .movSegmentAx .fs, .movSegmentAx .gs,
    .pushEsp]

/-- `isr_common_stub` behind the call. -/
def isrRestore : List Instr :=
  [.addEsp 4, .movEspEax, .popEax, .popEax, .movSegmentAx .ds,
    .movSegmentAx .es, .movSegmentAx .fs, .movSegmentAx .gs, .popa, .addEsp 8,
    .iret]

def isrCommonStub : List Instr := isrSave ++ .callIsrHandler :: isrRestore

/-- The numbers of `ISR_ERRORCODE`. -/
def hasErrorCode (number : UInt32) : Bool :=
  number = 8 || number = 10 || number = 11 || number = 12 || number = 13 ||
    number = 14 || number = 17 || number = 30

/-- `isr0`, `isr1` and so on. -/
def isr (number : UInt32) : List Instr :=
  if hasErrorCode number then .cli :: .push number :: isrCommonStub
  else .cli :: .push 0 :: .push number :: isrCommonStub

/-! ## An interrupt -/

/-- What the processor does when it takes an interrupt: outside the kernel it goes
to the stack of the task state segment and saves the outer one. -/
def Machine.enter (stack : KernelStack) (errorCode : Option UInt32)
    (m : Machine) : Machine :=
  let inner :=
    if m.cpu.Outer then
      let kernel := { m with cpu := { m.cpu with esp := stack.top, ss := 0x10 } }
      [m.cpu.ss.toUInt32, m.cpu.esp].foldl push kernel
    else m
  let saved := [m.cpu.eflags, m.cpu.cs.toUInt32, m.cpu.eip].foldl push inner
  let coded :=
    match errorCode with
    | some code => saved.push code
    | none => saved
  { coded with cpu := { coded.cpu with
    eflags := coded.cpu.eflags &&& ~~~0x200
    cs := 0x08 } }

def Machine.interrupt (stack : KernelStack) (number : UInt32)
    (errorCode : Option UInt32) (scratch : Scratch) (m : Machine) :
    Outcome Machine :=
  execAll stack scratch (isr number) (m.enter stack errorCode)

end ClOs
