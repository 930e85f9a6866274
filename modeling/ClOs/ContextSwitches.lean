import ClOs.InterruptStub

/-!
# Context switches

A stub saves the registers of the interrupted program as one
`intrupt_registers_t` and loads them from another one.  Over whole runs every
process finds its registers as it left them, as if it had a processor of its own.
-/

namespace ClOs

open ByteStore

/-! ## Saved registers -/

namespace Registers

def words (r : Registers) : List UInt32 :=
  [r.cr2, r.ds, r.edi, r.esi, r.ebp, r.esp, r.ebx, r.edx, r.ecx, r.eax,
    r.intruptNumber, r.errorCode, r.eip, r.csm, r.eflags, r.useresp, r.ss]

/-- The registers with which a program goes on. -/
def context (r : Registers) : Cpu where
  eax := r.eax
  ecx := r.ecx
  edx := r.edx
  ebx := r.ebx
  esp := r.useresp
  ebp := r.ebp
  esi := r.esi
  edi := r.edi
  eip := r.eip
  eflags := r.eflags
  cs := r.csm.toUInt16
  ss := r.ss.toUInt16
  ds := r.ds.toUInt16
  es := r.ds.toUInt16
  fs := r.ds.toUInt16
  gs := r.ds.toUInt16

end Registers

section

variable {memory other : ByteStore} {address : ℕ} {r : Registers}

theorem loadRegisters_eq (h : memory.WordsAt address r.words) :
    loadRegisters memory address = r := by
  obtain ⟨h0, h1, h2, h3, h4, h5, h6, h7, h8, h9, h10, h11, h12, h13, h14, h15,
    h16, -⟩ := h
  unfold loadRegisters
  rw [h0, h1, h2, h3, h4, h5, h6, h7, h8, h9, h10, h11, h12, h13, h14, h15, h16]

theorem loadRegisters_words (memory : ByteStore) (address : ℕ) :
    memory.WordsAt address (loadRegisters memory address).words :=
  ⟨rfl, rfl, rfl, rfl, rfl, rfl, rfl, rfl, rfl, rfl, rfl, rfl, rfl, rfl, rfl, rfl,
    rfl, trivial⟩

theorem loadRegisters_congr
    (h : memory.AgreeOn other address (address + 68)) :
    loadRegisters memory address = loadRegisters other address :=
  loadRegisters_eq (h.wordsAt le_rfl le_rfl (loadRegisters_words other address))

/-- The registers that `memcpy` copies. -/
theorem loadRegisters_blit (memory other : ByteStore) (address from' : ℕ) :
    loadRegisters (memory.blit address (other.drop from') 68) address =
      loadRegisters other from' := by
  have hword : ∀ i : ℕ, i + 4 ≤ 68 →
      (memory.blit address (other.drop from') 68).word (address + i) =
        other.word (from' + i) := by
    intro i hi
    unfold word le32
    simp only [Nat.add_assoc]
    rw [blit_add _ _ _ (by omega), blit_add _ _ _ (by omega),
      blit_add _ _ _ (by omega), blit_add _ _ _ (by omega)]
    rfl
  have hfirst : (memory.blit address (other.drop from') 68).word address =
      other.word from' := hword 0 (by decide)
  unfold loadRegisters
  rw [hword 4 (by decide), hword 8 (by decide), hword 12 (by decide),
    hword 16 (by decide), hword 20 (by decide), hword 24 (by decide),
    hword 28 (by decide), hword 32 (by decide), hword 36 (by decide),
    hword 40 (by decide), hword 44 (by decide), hword 48 (by decide),
    hword 52 (by decide), hword 56 (by decide), hword 60 (by decide),
    hword 64 (by decide), hfirst]

end

/-! ## The stub -/

section

variable (stack : KernelStack) (scratch : Scratch) (m : Machine)

/-- The registers behind the end of a stub: those that the result of the handler
points to. -/
def Cpu.resumed (ss : UInt16) (esp : UInt32) (r : Registers) : Cpu :=
  if r.context.Outer then r.context
  else { r.context with esp := esp, ss := ss }

def Machine.resume : Machine :=
  { m with
    cpu := Cpu.resumed m.cpu.ss (m.cpu.eax + 60)
      (loadRegisters m.memory m.cpu.eax.toNat) }

theorem isrRestore_eq (hroom : m.cpu.eax.toNat + 68 ≤ 4294967296) :
    execAll stack scratch isrRestore m = .ok m.resume := by
  have hat : ∀ d : UInt32, d.toNat < 68 → m.memory.word (m.cpu.eax + d).toNat =
      m.memory.word (m.cpu.eax.toNat + d.toNat) := by
    intro d hd
    rw [UInt32.toNat_add, Nat.mod_eq_of_lt (by omega)]
  simp only [isrRestore, execAll, Instr.exec, bind, Except.bind]
  simp only [Machine.setEsp, Machine.setEax, Machine.setSegment, Machine.popa,
    Machine.iret, Machine.top, UInt32.add_assoc, UInt32.reduceAdd]
  rw [hat 4 (by decide), hat 8 (by decide), hat 12 (by decide),
    hat 16 (by decide), hat 24 (by decide), hat 28 (by decide), hat 32 (by decide),
    hat 36 (by decide), hat 48 (by decide), hat 52 (by decide), hat 56 (by decide),
    hat 60 (by decide), hat 64 (by decide)]
  unfold Machine.resume Cpu.resumed
  by_cases houter : (loadRegisters m.memory m.cpu.eax.toNat).context.Outer
  · rw [if_pos houter]
    exact congrArg Except.ok (if_pos houter)
  · rw [if_neg houter]
    exact congrArg Except.ok (if_neg houter)

/-- The machine before `call isr_handler`. -/
def Machine.beforeCall (number : UInt32) : Machine :=
  let ax := (m.cr2 &&& 0xFFFF0000 ||| (0x10 : UInt16).toUInt32)
  { m with
    cpu := { m.cpu with
      eax := ax
      esp := pushed m.cpu.esp 13
      eflags := m.cpu.eflags &&& ~~~0x200
      ds := ax.toUInt16
      es := ax.toUInt16
      fs := ax.toUInt16
      gs := ax.toUInt16 }
    memory := m.memory.pushWords m.cpu.esp [0, number, m.cpu.eax, m.cpu.ecx,
      m.cpu.edx, m.cpu.ebx, pushed m.cpu.esp 2, m.cpu.ebp, m.cpu.esi, m.cpu.edi,
      m.cpu.ds.toUInt32, m.cr2, pushed m.cpu.esp 12] }

theorem isr_eq {number : UInt32} (hnumber : hasErrorCode number = false) :
    execAll stack scratch (isr number) m =
      (m.beforeCall number).callIsrHandler stack scratch >>=
        execAll stack scratch isrRestore := by
  unfold isr
  rw [hnumber]
  simp only [Bool.false_eq_true, if_false, isrCommonStub, isrSave,
    List.cons_append, List.nil_append, execAll, Instr.exec, bind, Except.bind,
    Machine.push, Machine.pusha, Machine.setEax, Machine.setSegment, List.foldl,
    Machine.beforeCall, pushWords, pushed]

/-! ## The saved frame -/

/-- What an interrupt keeps of the registers: `isr_common_stub` loads all data
segments from `ds`. -/
def Cpu.flat (c : Cpu) : Cpu := { c with es := c.ds, fs := c.ds, gs := c.ds }

theorem enter_outer (houter : m.cpu.Outer) :
    m.enter stack none =
      { m with
        cpu := { m.cpu with
          esp := pushed stack.top 5
          ss := 0x10
          eflags := m.cpu.eflags &&& ~~~0x200
          cs := 0x08 }
        memory := m.memory.pushWords stack.top [m.cpu.ss.toUInt32, m.cpu.esp,
          m.cpu.eflags, m.cpu.cs.toUInt32, m.cpu.eip] } := by
  unfold Machine.enter
  rw [if_pos houter]
  simp only [List.foldl, Machine.push, pushWords, pushed]

theorem enter_inner (hinner : ¬m.cpu.Outer) :
    m.enter stack none =
      { m with
        cpu := { m.cpu with
          esp := pushed m.cpu.esp 3
          eflags := m.cpu.eflags &&& ~~~0x200
          cs := 0x08 }
        memory := m.memory.pushWords m.cpu.esp [m.cpu.eflags,
          m.cpu.cs.toUInt32, m.cpu.eip] } := by
  unfold Machine.enter
  rw [if_neg hinner]
  simp only [List.foldl, Machine.push, pushWords, pushed]

/-- The machine `x` before the call of the handler: the registers of `m` are saved
from `base` on, and outside the kernel stack its memory is that of `m`. -/
structure Saves (stack : KernelStack) (m x : Machine) (number : UInt32)
    (base : ℕ) (r : Registers) : Prop where
  esp : x.cpu.esp.toNat + 4 = base
  argument : (x.top 0).toNat = base
  low : stack.bottom + 4 ≤ base
  high : base + 60 ≤ stack.top.toNat
  registers : loadRegisters x.memory base = r
  number : r.intruptNumber = number
  back : Cpu.resumed x.cpu.ss (x.top 0 + 60) r = m.cpu.flat
  scheduler : x.scheduler = m.scheduler
  below : x.memory.AgreeOn m.memory 0 stack.bottom
  above : ∀ high, x.memory.AgreeOn m.memory stack.top.toNat high

def Machine.registers (number esp useresp ss : UInt32) : Registers where
  cr2 := m.cr2
  ds := m.cpu.ds.toUInt32
  edi := m.cpu.edi
  esi := m.cpu.esi
  ebp := m.cpu.ebp
  esp := esp
  ebx := m.cpu.ebx
  edx := m.cpu.edx
  ecx := m.cpu.ecx
  eax := m.cpu.eax
  intruptNumber := number
  errorCode := 0
  eip := m.cpu.eip
  csm := m.cpu.cs.toUInt32
  eflags := m.cpu.eflags
  useresp := useresp
  ss := ss

theorem registers_context (number esp useresp ss : UInt32) :
    (m.registers number esp useresp ss).context =
      { m.cpu.flat with esp := useresp, ss := ss.toUInt16 } := by
  unfold Machine.registers Registers.context Cpu.flat
  simp only [UInt16.toUInt16_toUInt32]

/-- A stub that starts below what the processor has saved. -/
theorem beforeCall_saves
    {esp eflags useresp ssWord : UInt32} {cs ss : UInt16} {memory : ByteStore}
    (number : UInt32)
    (hwords : memory.WordsAt esp.toNat
      [m.cpu.eip, m.cpu.cs.toUInt32, m.cpu.eflags, useresp, ssWord])
    (hlow : stack.bottom + 52 ≤ esp.toNat)
    (hhigh : esp.toNat + 12 ≤ stack.top.toNat)
    (hback : ∀ top : UInt32, top.toNat = esp.toNat + 12 → Cpu.resumed ss top
      (m.registers number (pushed esp 2) useresp ssWord) = m.cpu.flat)
    (hbelow : memory.AgreeOn m.memory 0 stack.bottom)
    (habove : ∀ high, memory.AgreeOn m.memory stack.top.toNat high) :
    Saves stack m (Machine.beforeCall { m with
        cpu := { m.cpu with esp := esp, ss := ss, eflags := eflags, cs := cs }
        memory := memory } number)
      number (esp.toNat - 48)
      (m.registers number (pushed esp 2) useresp ssWord) := by
  have hlimit := stack.limit
  have hroom : 4 * 13 ≤ esp.toNat := by omega
  have htop : (pushed esp 13 + 0).toNat = esp.toNat - 4 * 13 := by
    rw [UInt32.add_zero, pushed_toNat hroom]
  have hargument : (pushed esp 12).toNat = esp.toNat - 48 :=
    pushed_toNat (by omega)
  obtain ⟨hfirst, hframe⟩ := @WordsAt.push memory esp
    [0, number, m.cpu.eax, m.cpu.ecx, m.cpu.edx, m.cpu.ebx, pushed esp 2,
      m.cpu.ebp, m.cpu.esi, m.cpu.edi, m.cpu.ds.toUInt32, m.cr2, pushed esp 12]
    _ hwords hroom
  have hpushed : Machine.top (Machine.beforeCall { m with
      cpu := { m.cpu with esp := esp, ss := ss, eflags := eflags, cs := cs }
      memory := memory } number) 0 = pushed esp 12 := by
    unfold Machine.top Machine.beforeCall
    simp only
    rw [htop]
    exact hfirst
  have hbase : esp.toNat - 4 * 13 + 4 = esp.toNat - 48 := by omega
  have hkeeps : ∀ low high, high ≤ stack.bottom ∨ stack.top.toNat ≤ low →
      (Machine.beforeCall { m with
        cpu := { m.cpu with esp := esp, ss := ss, eflags := eflags, cs := cs }
        memory := memory } number).memory.AgreeOn memory low high := by
    intro low high h
    refine pushWords_agreeOn memory hroom ?_
    simp only [List.length]
    omega
  exact {
    esp := by
      have hesp : (pushed esp 13).toNat = esp.toNat - 4 * 13 := pushed_toNat hroom
      exact (congrArg (· + 4) hesp).trans hbase
    argument := by rw [hpushed, hargument]
    low := by omega
    high := by omega
    registers := loadRegisters_eq (hbase ▸ hframe)
    number := rfl
    back := by
      refine hback _ ?_
      rw [hpushed, UInt32.toNat_add, hargument, Nat.mod_eq_of_lt]
      · show esp.toNat - 48 + 60 = esp.toNat + 12
        omega
      · show esp.toNat - 48 + 60 < 4294967296
        omega
    scheduler := rfl
    below := (hkeeps 0 stack.bottom (.inl le_rfl)).trans hbelow
    above := fun high =>
      (hkeeps stack.top.toNat high (.inr le_rfl)).trans (habove high) }

/-- Where the stub of an interrupt saves the registers. -/
def Machine.frame : ℕ :=
  if m.cpu.Outer then stack.top.toNat - 68 else m.cpu.esp.toNat - 60

def Machine.InStack : Prop :=
  ¬m.cpu.Outer →
    stack.bottom + 64 ≤ m.cpu.esp.toNat ∧ m.cpu.esp.toNat ≤ stack.top.toNat

theorem resumed_outer
    {number esp : UInt32} (houter : m.cpu.Outer) (ss : UInt16) (top : UInt32) :
    Cpu.resumed ss top
      (m.registers number esp m.cpu.esp m.cpu.ss.toUInt32) = m.cpu.flat := by
  unfold Cpu.resumed
  rw [registers_context, UInt16.toUInt16_toUInt32]
  exact if_pos houter

theorem resumed_inner
    {number esp useresp ss : UInt32} (hinner : ¬m.cpu.Outer) :
    Cpu.resumed m.cpu.ss m.cpu.esp (m.registers number esp useresp ss) =
      m.cpu.flat := by
  unfold Cpu.resumed
  rw [registers_context]
  exact if_neg hinner

/-- A stub saves the registers of the interrupted program. -/
theorem interrupt_saves (hstack : m.InStack stack) (number : UInt32) :
    ∃ r, Saves stack m ((m.enter stack none).beforeCall number) number
      (m.frame stack) r := by
  have hsize := stack.size
  unfold Machine.frame
  by_cases houter : m.cpu.Outer
  · have hroom : 4 * 5 ≤ stack.top.toNat := by omega
    have hesp : (pushed stack.top 5).toNat = stack.top.toNat - 4 * 5 :=
      pushed_toNat hroom
    have hwords : (m.memory.pushWords stack.top [m.cpu.ss.toUInt32, m.cpu.esp,
        m.cpu.eflags, m.cpu.cs.toUInt32, m.cpu.eip]).WordsAt
          (pushed stack.top 5).toNat
          [m.cpu.eip, m.cpu.cs.toUInt32, m.cpu.eflags, m.cpu.esp,
            m.cpu.ss.toUInt32] := by
      rw [hesp]
      exact @WordsAt.push m.memory stack.top _ [] trivial hroom
    have hframe : stack.top.toNat - 68 = (pushed stack.top 5).toNat - 48 := by
      omega
    rw [enter_outer stack m houter, if_pos houter, hframe]
    refine ⟨_, beforeCall_saves stack m number hwords (by omega) (by omega)
      (fun top _ => resumed_outer m houter _ _) ?_ fun high => ?_⟩
    · exact pushWords_agreeOn _ hroom (.inl (by simp only [List.length]; omega))
    · exact pushWords_agreeOn _ hroom (.inr le_rfl)
  · obtain ⟨hlow, hhigh⟩ := hstack houter
    have hroom : 4 * 3 ≤ m.cpu.esp.toNat := by omega
    have hesp : (pushed m.cpu.esp 3).toNat = m.cpu.esp.toNat - 4 * 3 :=
      pushed_toNat hroom
    have habove : m.memory.WordsAt m.cpu.esp.toNat
        [m.memory.word m.cpu.esp.toNat, m.memory.word (m.cpu.esp.toNat + 4)] :=
      ⟨rfl, rfl, trivial⟩
    have hwords : (m.memory.pushWords m.cpu.esp [m.cpu.eflags,
        m.cpu.cs.toUInt32, m.cpu.eip]).WordsAt (pushed m.cpu.esp 3).toNat
          [m.cpu.eip, m.cpu.cs.toUInt32, m.cpu.eflags,
            m.memory.word m.cpu.esp.toNat, m.memory.word (m.cpu.esp.toNat + 4)] := by
      rw [hesp]
      exact habove.push hroom
    have hframe : m.cpu.esp.toNat - 60 = (pushed m.cpu.esp 3).toNat - 48 := by
      omega
    rw [enter_inner stack m houter, if_neg houter, hframe]
    refine ⟨_, beforeCall_saves stack m number hwords (by omega) (by omega)
      (fun top htop => ?_) ?_ fun high => ?_⟩
    · have hsame : top = m.cpu.esp := by
        rw [← UInt32.toNat_inj]
        omega
      rw [hsame]
      exact resumed_inner m houter
    · exact pushWords_agreeOn _ hroom (.inl (by simp only [List.length]; omega))
    · exact pushWords_agreeOn _ hroom (.inr (by omega))

/-! ## A whole interrupt -/

/-- The memory behind a call of the handler: what it has saved for `schedule`, and
scratch below the frame. -/
theorem callIsrHandler_ok
    {x : Machine} {regs : UInt32} {memory : ByteStore} {s : Scheduler}
    (h : isrHandler (x.top 0) x.memory x.scheduler = .ok (regs, memory, s)) :
    ∃ y, x.callIsrHandler stack scratch = .ok y ∧ y.cpu.eax = regs ∧
      y.cpu.ss = x.cpu.ss ∧ y.cr2 = x.cr2 ∧ y.scheduler = s ∧
      y.memory = memory.blit stack.bottom scratch.bytes
        (x.cpu.esp.toNat - stack.bottom) := by
  unfold Machine.callIsrHandler
  rw [h]
  exact ⟨_, rfl, rfl, rfl, rfl, rfl, rfl⟩

theorem interrupt_eq
    {number : UInt32} (hnumber : hasErrorCode number = false) :
    m.interrupt stack number none scratch =
      ((m.enter stack none).beforeCall number).callIsrHandler stack scratch >>=
        execAll stack scratch isrRestore :=
  isr_eq stack scratch (m.enter stack none) hnumber

theorem isrHandler_timer
    {regs : UInt32} {memory : ByteStore} (s : Scheduler)
    (h : (loadRegisters memory regs.toNat).intruptNumber = 32) :
    isrHandler regs memory s = scheduleInMemory regs memory s := by
  unfold isrHandler
  rw [h]
  rfl

theorem isrHandler_other
    {regs number : UInt32} {memory : ByteStore} (s : Scheduler)
    (h : (loadRegisters memory regs.toNat).intruptNumber = number)
    (hnumber : 32 < number) : isrHandler regs memory s = .ok (regs, memory, s) := by
  have hlarge : ¬number < 32 := by
    rw [UInt32.lt_iff_toNat_lt] at hnumber ⊢
    omega
  have hne : number ≠ 32 := by
    rintro rfl
    exact absurd hnumber (by decide)
  unfold isrHandler
  rw [h]
  simp only [hlarge, hne, if_false, ite_self]

theorem hasErrorCode_of_le {number : UInt32} (h : 32 ≤ number) :
    hasErrorCode number = false := by
  refine Bool.eq_false_iff.2 fun hcode => ?_
  unfold hasErrorCode at hcode
  simp only [Bool.or_eq_true, decide_eq_true_eq] at hcode
  rcases hcode with ((((((rfl | rfl) | rfl) | rfl) | rfl) | rfl) | rfl) | rfl <;>
    exact absurd h (by decide)

theorem interrupt_ok
    {number regs : UInt32} {base : ℕ} {r : Registers} {memory : ByteStore}
    {s : Scheduler} (hnumber : 32 ≤ number)
    (hsaves : Saves stack m ((m.enter stack none).beforeCall number) number base r)
    (hhandler : isrHandler (((m.enter stack none).beforeCall number).top 0)
      ((m.enter stack none).beforeCall number).memory m.scheduler =
        .ok (regs, memory, s))
    (hregs : regs.toNat + 68 ≤ 4294967296) :
    ∃ next, m.interrupt stack number none scratch = .ok next ∧
      next.scheduler = s ∧
      next.memory = memory.blit stack.bottom scratch.bytes
        (base - 4 - stack.bottom) ∧
      next.cpu = Cpu.resumed
        ((m.enter stack none).beforeCall number).cpu.ss (regs + 60)
        (loadRegisters next.memory regs.toNat) := by
  rw [← hsaves.scheduler] at hhandler
  obtain ⟨y, hcall, heax, hss, -, hscheduler, hmemory⟩ :=
    callIsrHandler_ok stack scratch hhandler
  have hbase := hsaves.esp
  have hroom : y.cpu.eax.toNat + 68 ≤ 4294967296 := by rwa [heax]
  refine ⟨y.resume, ?_, hscheduler, ?_, ?_⟩
  · rw [interrupt_eq stack scratch m (hasErrorCode_of_le hnumber)]
    exact Outcome.bind_eq_ok.2 ⟨y, hcall, isrRestore_eq stack scratch y hroom⟩
  · rw [← hbase, Nat.add_sub_cancel]
    exact hmemory
  · unfold Machine.resume
    rw [heax, hss]

end

/-! ## The registers of the processes -/

structure Scheduler.Placed (s : Scheduler) (stack : KernelStack) : Prop where
  bounded : ∀ p process, s.processes p = some process → p + 128 ≤ 4294967296
  outside : ∀ p process, s.processes p = some process →
    p + 128 ≤ stack.bottom ∨ stack.top.toNat ≤ p
  apart : ∀ p q process other, s.processes p = some process →
    s.processes q = some other → p ≠ q → p + 128 ≤ q ∨ q + 128 ≤ p

def Scheduler.Held (s : Scheduler) (memory : ByteStore) : Prop :=
  ∀ p process, s.processes p = some process →
    loadRegisters memory (regsAddress p) = process.regs

section

variable {stack : KernelStack} {m : Machine} {s next : Scheduler}
  {memory other : ByteStore}

/-- The kernel stack holds no registers of processes. -/
theorem Scheduler.Held.congr
    (h : s.Held memory) (hplaced : s.Placed stack)
    (hbelow : other.AgreeOn memory 0 stack.bottom)
    (habove : ∀ high, other.AgreeOn memory stack.top.toNat high) :
    s.Held other := by
  intro p process hprocess
  rw [← h p process hprocess]
  apply loadRegisters_congr
  unfold regsAddress
  rcases hplaced.outside p process hprocess with hlow | hhigh
  · exact hbelow.mono (Nat.zero_le _) (by omega)
  · exact (habove (p + 52 + 68)).mono (by omega) le_rfl

theorem Scheduler.Held.save
    (h : s.Held memory) (hplaced : s.Placed stack) {from' : ℕ} {running : Process}
    {r : Registers} (hfrom : loadRegisters other from' = r)
    (hrunning : s.processes s.currentProcessRunning = some running)
    (hnext : next.processes = Function.update s.processes
      s.currentProcessRunning (some { running with regs := r })) :
    next.Held (memory.blit (regsAddress s.currentProcessRunning)
      (other.drop from') 68) := by
  intro p process hprocess
  by_cases hp : p = s.currentProcessRunning
  · subst hp
    rw [hnext, Function.update_self, Option.some.injEq] at hprocess
    rw [loadRegisters_blit, hfrom, ← hprocess]
  · rw [hnext, Function.update_of_ne hp] at hprocess
    rw [← h p process hprocess]
    apply loadRegisters_congr
    apply blit_agreeOn
    have hapart := hplaced.apart p s.currentProcessRunning process running
      hprocess hrunning hp
    unfold regsAddress
    omega

theorem Scheduler.Placed.tick
    {r : Registers} {result : Option ℕ} (h : s.Placed stack)
    (hticks : s.Ticks r result next) : next.Placed stack := by
  obtain ⟨running, hrunning, hnext⟩ := hticks.saved
  have hsame : ∀ p process, next.processes p = some process →
      ∃ old, s.processes p = some old := by
    intro p process hprocess
    by_cases hp : p = s.currentProcessRunning
    · exact ⟨running, hp ▸ hrunning⟩
    · rw [hnext, Function.update_of_ne hp] at hprocess
      exact ⟨process, hprocess⟩
  refine ⟨fun p process hprocess => ?_, fun p process hprocess => ?_,
    fun p q process other hp hq hne => ?_⟩
  · obtain ⟨old, hold⟩ := hsame p process hprocess
    exact h.bounded p old hold
  · obtain ⟨old, hold⟩ := hsame p process hprocess
    exact h.outside p old hold
  · obtain ⟨oldp, holdp⟩ := hsame p process hp
    obtain ⟨oldq, holdq⟩ := hsame q other hq
    exact h.apart p q oldp oldq holdp holdq hne

theorem Saves.context_outer
    {x : Machine} {number : UInt32} {base : ℕ} {r : Registers}
    (h : Saves stack m x number base r) (houter : m.cpu.Outer) :
    r.context = m.cpu.flat := by
  have hback := h.back
  unfold Cpu.resumed at hback
  split_ifs at hback with hr
  · exact hback
  · have hcs := congrArg Cpu.cs hback
    refine absurd ?_ hr
    unfold Cpu.Outer
    exact (congrArg (· &&& 3) hcs).trans houter

/-- An interrupt that is not the timer's returns to the interrupted program. -/
theorem interrupt_other
    (hstack : m.InStack stack) {number : UInt32} (hnumber : 32 < number)
    (scratch : Scratch) :
    ∃ last, m.interrupt stack number none scratch = .ok last ∧
      last.cpu = m.cpu.flat ∧ last.scheduler = m.scheduler ∧
      last.memory.AgreeOn m.memory 0 stack.bottom ∧
      ∀ high, last.memory.AgreeOn m.memory stack.top.toNat high := by
  obtain ⟨r, hsaves⟩ := interrupt_saves stack m hstack number
  have hbase := hsaves.argument
  have hlow := hsaves.low
  have hhigh := hsaves.high
  have hlimit := stack.limit
  have hsize := stack.size
  have hhandler := @isrHandler_other
    (((m.enter stack none).beforeCall number).top 0) number
    ((m.enter stack none).beforeCall number).memory m.scheduler
    (by rw [hbase, hsaves.registers, hsaves.number]) hnumber
  obtain ⟨last, hlast, hscheduler, hmemory, hcpu⟩ := interrupt_ok stack scratch m
    (by rw [UInt32.lt_iff_toNat_lt] at hnumber; rw [UInt32.le_iff_toNat_le]; omega)
    hsaves hhandler (by omega)
  refine ⟨last, hlast, ?_, hscheduler, ?_, fun high => ?_⟩
  · have hframe : last.memory.AgreeOn
        ((m.enter stack none).beforeCall number).memory (m.frame stack)
          (m.frame stack + 68) := by
      rw [hmemory]
      exact blit_agreeOn _ _ (.inr (by omega))
    rw [hcpu, hbase, loadRegisters_congr hframe, hsaves.registers, hsaves.back]
  · rw [hmemory]
    exact (blit_agreeOn _ _ (.inl le_rfl)).trans hsaves.below
  · rw [hmemory]
    exact (blit_agreeOn _ _ (.inr (by omega))).trans (hsaves.above high)

theorem scheduleInMemory_ok
    {regs : UInt32} {r : Registers} {result : Option ℕ}
    (hinit : s.isInitProcess = true)
    (hregs : loadRegisters memory regs.toNat = r)
    (h : s.schedule r = .ok (result, next)) :
    scheduleInMemory regs memory s =
      .ok ((result.map fun q => UInt32.ofNat (regsAddress q)).getD regs,
        memory.blit (regsAddress s.currentProcessRunning)
          (memory.drop regs.toNat) 68, next) := by
  unfold scheduleInMemory
  rw [hregs, h, hinit]
  cases result with
  | none => rfl
  | some q => rfl

/-- The timer saves the registers of the current process and goes on with the
process that `schedule` gives, or with the same program. -/
theorem interrupt_timer
    (hstack : m.InStack stack) (hinit : m.scheduler.isInitProcess = true)
    (hplaced : m.scheduler.Placed stack) (hheld : m.scheduler.Held m.memory) :
    ∃ r, (m.cpu.Outer → r.context = m.cpu.flat) ∧
      ∀ result next, m.scheduler.schedule r = .ok (result, next) →
        ∀ scratch, ∃ last, m.interrupt stack 32 none scratch = .ok last ∧
          last.scheduler = next ∧ next.Held last.memory ∧
          (result = none → last.cpu = m.cpu.flat) ∧
          ∀ q process, result = some q → next.processes q = some process →
            process.regs.context.Outer → last.cpu = process.regs.context := by
  obtain ⟨r, hsaves⟩ := interrupt_saves stack m hstack 32
  refine ⟨r, hsaves.context_outer, fun result next hschedule scratch => ?_⟩
  have hbase := hsaves.argument
  have hlow := hsaves.low
  have hhigh := hsaves.high
  have hlimit := stack.limit
  have hticks := Scheduler.schedule_ticks hinit hschedule
  obtain ⟨running, hrunning, hnext⟩ := hticks.saved
  have hplaced' := hplaced.tick hticks
  have houtside := hplaced.outside _ running hrunning
  have hkept : m.scheduler.Held ((m.enter stack none).beforeCall 32).memory :=
    hheld.congr hplaced hsaves.below hsaves.above
  have hsaved := hkept.save hplaced
    (hbase ▸ hsaves.registers :
      loadRegisters ((m.enter stack none).beforeCall 32).memory
        (((m.enter stack none).beforeCall 32).top 0).toNat = r) hrunning hnext
  have hhandler : ∀ regs,
      (result.map fun q => UInt32.ofNat (regsAddress q)).getD
        (((m.enter stack none).beforeCall 32).top 0) = regs →
      isrHandler (((m.enter stack none).beforeCall 32).top 0)
        ((m.enter stack none).beforeCall 32).memory m.scheduler =
      .ok (regs, ((m.enter stack none).beforeCall 32).memory.blit
        (regsAddress m.scheduler.currentProcessRunning)
        (((m.enter stack none).beforeCall 32).memory.drop
          (((m.enter stack none).beforeCall 32).top 0).toNat) 68, next) := by
    rintro regs rfl
    rw [isrHandler_timer m.scheduler (by rw [hbase, hsaves.registers, hsaves.number])]
    exact scheduleInMemory_ok hinit (by rw [hbase, hsaves.registers]) hschedule
  have hlast : ∀ regs : UInt32, regs.toNat + 68 ≤ 4294967296 →
      (result.map fun q => UInt32.ofNat (regsAddress q)).getD
        (((m.enter stack none).beforeCall 32).top 0) = regs →
      ∃ last, m.interrupt stack 32 none scratch = .ok last ∧
        last.scheduler = next ∧ next.Held last.memory ∧
        loadRegisters last.memory (m.frame stack) = r ∧
        last.cpu = Cpu.resumed ((m.enter stack none).beforeCall 32).cpu.ss
          (regs + 60) (loadRegisters last.memory regs.toNat) := by
    intro regs hregs hresult
    obtain ⟨last, hinterrupt, hscheduler, hmemory, hcpu⟩ := interrupt_ok stack
      scratch m (by decide) hsaves (hhandler regs hresult) hregs
    refine ⟨last, hinterrupt, hscheduler, ?_, ?_, hcpu⟩
    · rw [hmemory]
      exact hsaved.congr hplaced' (blit_agreeOn _ _ (.inl le_rfl))
        fun high => blit_agreeOn _ _ (.inr (by omega))
    · rw [hmemory, ← hsaves.registers]
      apply loadRegisters_congr
      refine (blit_agreeOn _ _ (.inr (by omega))).trans (blit_agreeOn _ _ ?_)
      unfold regsAddress
      omega
  cases result with
  | none =>
      obtain ⟨last, hinterrupt, hscheduler, hheld', hframe, hcpu⟩ :=
        hlast (((m.enter stack none).beforeCall 32).top 0) (by omega) rfl
      refine ⟨last, hinterrupt, hscheduler, hheld', fun _ => ?_,
        fun q process hq => by cases hq⟩
      rw [hcpu]
      exact (congrArg (Cpu.resumed _ _) (hbase ▸ hframe)).trans hsaves.back
  | some q =>
      obtain ⟨-, process, hprocess, -⟩ := hticks.resumed q rfl
      have hbound := hplaced'.bounded q process hprocess
      have hpointer : (UInt32.ofNat (regsAddress q)).toNat = regsAddress q := by
        rw [UInt32.toNat_ofNat', Nat.mod_eq_of_lt]
        unfold regsAddress
        omega
      obtain ⟨last, hinterrupt, hscheduler, hheld', -, hcpu⟩ :=
        hlast (UInt32.ofNat (regsAddress q))
          (by rw [hpointer]; unfold regsAddress; omega) rfl
      refine ⟨last, hinterrupt, hscheduler, hheld',
        fun hnone => absurd hnone (Option.some_ne_none q),
        fun q' process' hq hprocess' houter => ?_⟩
      obtain rfl : q = q' := Option.some.inj hq
      rw [hcpu, hpointer, hheld' q process' hprocess']
      exact if_pos houter

end

end ClOs
