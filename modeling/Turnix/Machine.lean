import Turnix.Entry
import Turnix.SchedulerRuns

/-!
# The machine: tasks on one CPU

The scheduler on top of the stubs. A step is an interrupt, a system call, one instruction of the
block in `start_scheduling` (which runs with interrupts enabled), or a stretch of Rust code, which may
do anything to the registers but writes only to the stack it runs on.

Two parts of the state are bookkeeping. `ctl` says which code the CPU executes, which a real CPU finds
in `rip`. `saved` keeps, for each task, the context in which it was last suspended or with which it
was created; no step of the machine reads a context from it. Every time a task goes on, the context it
was promised and the one it got are added to `resumed`; every return of a system call is added to
`returned`.
-/

namespace Turnix

open Lib

/-! ## Stacks -/

/-- `KERNEL_STACK_REGION_BASE`. -/
def kernelStackRegionBase : Nat := 0xFFFFFE0000000000

/-- `STACK_STRIDE`: a guard page, eight pages of stack and one more. -/
def stackStride : Nat := (8 + 1 + 1) * 4096

/-- `usable_stack_start` of a task. -/
def stackBottom (id : TaskId) : Nat := kernelStackRegionBase + id * stackStride + 4096

/-- `stack_top_virt` of a task. -/
def stackTop (id : TaskId) : Nat := stackBottom id + 8 * 4096

/-- A word of the kernel stack of a task. -/
def onStack (id : TaskId) (a : Nat) : Bool :=
  a % 8 = 0 ∧ stackBottom id ≤ a ∧ a + 8 ≤ stackTop id

/-- The address of `PER_CPU` and the stack on which the kernel boots. -/
structure Platform where
  perCpu : Nat
  bootBottom : Nat
  bootTop : Nat

/-- A word of the boot stack. -/
def Platform.onBootStack (p : Platform) (a : Nat) : Bool :=
  a % 8 = 0 ∧ p.bootBottom ≤ a ∧ a + 8 ≤ p.bootTop

/-- The stack of a new task is not where the boot stack is, whose pages are mapped already. -/
def Platform.clear (p : Platform) (id : TaskId) : Bool :=
  stackTop id ≤ p.bootBottom ∨ p.bootTop ≤ stackBottom id

/-! ## State -/

/-- The code that the CPU executes. -/
inductive Ctl
  /-- `kernel_main`, before `start_scheduling` has picked a task -/
  | boot
  /-- a kernel task -/
  | kernel
  /-- a user program, in ring 3 -/
  | user
  /-- `syscall_dispatch`, called by a program with context `entered`, with its frame at `frame` -/
  | syscall (entered : Context) (frame : Nat)
  /-- `exit_current_task` -/
  | exiting
  /-- the rest of the block in `start_scheduling`, which is to load `init` -/
  | dispatch (rest : List Instr) (init : Context)

/-- The code runs on the boot stack: up to the first instruction of the block in
`start_scheduling`. -/
def Ctl.onBootStack : Ctl → Bool
  | boot => true
  | dispatch (.movRsp _ :: _) _ => true
  | _ => false

/-- A task goes on: with which context it was suspended or created, and which one it has got. -/
structure Resumption where
  task : TaskId
  suspended : Context
  resumed : Context

/-- A system call returns: the context of the caller before and after it, and the result. -/
structure SyscallReturn where
  entered : Context
  returned : Context
  result : Nat

/-- The machine. -/
structure Machine where
  core : Core
  kernel : Kernel
  nextId : TaskId
  ctl : Ctl
  /-- the task that `start_scheduling` has picked -/
  first : Option TaskId
  saved : TaskId → Option (Context × Ctl)
  resumed : List Resumption
  returned : List SyscallReturn

/-- The state behind `gdt::init`: GS points to `PER_CPU`, the other base is zero, the scheduler is
empty. -/
def Machine.init (p : Platform) (ctx : Context) (mem : Nat → Nat) (hw : Hardware) : Machine where
  core := ⟨⟨{ ctx with cs := 0x08 }, p.perCpu, 0⟩, mem, 0⟩
  kernel := ⟨Scheduler.new, 0, hw⟩
  nextId := 1
  ctl := .boot
  first := none
  saved := fun _ => none
  resumed := []
  returned := []

/-- The words that code under `ctl` in a task may write. -/
def stackOf (p : Platform) (task : Option TaskId) (ctl : Ctl) (a : Nat) : Bool :=
  if ctl.onBootStack then p.onBootStack a else task.any fun id => onStack id a

/-- The environment of the instructions. -/
def Machine.env (p : Platform) (m : Machine) : Env where
  writable := stackOf p m.kernel.currentId m.ctl
  perCpu := p.perCpu
  kernelStackPtr := m.kernel.hw.kernelStackPtr

/-! ## Steps -/

/-- The words that `Task::new` and `Task::new_user` write to the new stack, in order. -/
def newFrame (ctx : Context) : List Nat :=
  [ctx.ss, ctx.rsp, ctx.rflags, ctx.cs, ctx.rip] ++ List.replicate 15 0

/-- A new task with the context that its frame describes, added to the scheduler. -/
def Machine.spawn (p : Platform) (ctx : Context) (ctl : Ctl) (process : Process) (m : Machine) :
    Option Machine :=
  let id := m.nextId
  if p.clear id then
    (pushWords (fun _ => true) (newFrame ctx) (stackTop id) m.core.mem).map fun r =>
      { m with
        core := { m.core with mem := r.2 }
        kernel := addTask ⟨id, r.1, stackTop id, process, .ready⟩ m.kernel
        nextId := m.nextId + 1
        saved := Function.update m.saved id (some (ctx, ctl)) }
  else none

/-- The context of a new kernel task. -/
def kernelContext (entry stackTop : Nat) : Context := ⟨fun _ => 0, entry, 0x08, 0x202, stackTop, 0x10⟩

/-- The context of a new user task. -/
def userContext (process : Process) : Context :=
  ⟨fun _ => 0, process.entryPoint, 0x2b, 0x202, process.stackTop, 0x23⟩

/-- `Task::new` and `add_task`. -/
def Machine.newTask (p : Platform) (entry : Nat) (process : Process) (m : Machine) :
    Option Machine :=
  m.spawn p (kernelContext entry (stackTop m.nextId)) .kernel process

/-- `Task::new_user` and `add_task`. -/
def Machine.newUser (p : Platform) (process : Process) (m : Machine) : Option Machine :=
  m.spawn p (userContext process) .user process

/-- The current task is suspended: its context is recorded. -/
def Machine.suspended (m : Machine) : TaskId → Option (Context × Ctl) :=
  match m.kernel.currentId with
  | some id => Function.update m.saved id (some (m.core.cpu.toContext, m.ctl))
  | none => m.saved

/-- The current task goes on where it was suspended. -/
def Machine.goOn (m : Machine) : Machine :=
  match m.kernel.currentId with
  | some id =>
    match m.saved id with
    | some (ctx, ctl) =>
      { m with ctl := ctl, resumed := ⟨id, ctx, m.core.cpu.toContext⟩ :: m.resumed }
    | none => m
  | none => m

/-- An interrupt through one of the stubs that call `timer_tick`. -/
def Machine.tick (p : Platform) (stub : List Instr) (lockFree : Bool) (scratch : Scratch)
    (m : Machine) : Option Machine := do
  let env := m.env p
  let c ← m.core.interrupt env m.kernel.hw.privilegeStack
  let c ← exec env 0 stub c
  let stackPtr := c.cpu.gpr .rdi
  let c ← c.call env scratch
  match timerTick lockFree stackPtr m.kernel with
  | .halt => none
  | .ret kernel nextStack =>
    let c ← exec env 0 interruptRestore { c with cpu := c.cpu.setReg .rax nextStack }
    return { m with core := c, kernel := kernel, saved := m.suspended : Machine }.goOn

/-- `start_scheduling`, up to its block of assembly. -/
def Machine.start (m : Machine) : Option Machine := do
  let (kernel, nextPtr) ← startScheduling m.kernel
  let id ← kernel.currentId
  let (init, _) ← m.saved id
  return { m with
    kernel := kernel
    ctl := .dispatch (dispatchCode nextPtr) init
    first := some id }

/-- One instruction of the block in `start_scheduling`. -/
def Machine.dispatchStep (p : Platform) (m : Machine) : Option Machine :=
  match m.ctl with
  | .dispatch (.jz n :: rest) init =>
    some { m with ctl := .dispatch (if zeroFlag m.core.cpu.rflags then rest.drop n else rest) init }
  | .dispatch (.iretq :: _) init => do
    let c ← Instr.iretq.step (m.env p) m.core
    let id ← m.kernel.currentId
    return { m with
      core := c
      ctl := if ring3 c.cpu.cs then .user else .kernel
      resumed := ⟨id, init, c.cpu.toContext⟩ :: m.resumed }
  | .dispatch (i :: rest) init => do
    let c ← i.step (m.env p) m.core
    return { m with core := c, ctl := .dispatch rest init }
  | _ => none

/-- The registers that code sets when it runs. -/
structure RunRegs where
  gpr : Reg → Nat
  rip : Nat
  rflags : Nat
  rsp : Nat

/-- Where Rust code under `ctl` may have its stack pointer. -/
def stackPointerOk (p : Platform) (rsp : Nat) : Ctl → Bool
  | .boot => p.bootBottom ≤ rsp ∧ rsp ≤ p.bootTop
  | .syscall _ frame => rsp ≤ frame
  | _ => true

/-- The end of the part of the stack that code under `ctl` writes: a called function does not reach
above its frame. -/
def stackLimit : Ctl → Nat
  | .syscall _ frame => frame
  | _ => 2 ^ 64

/-- Code of the kernel runs for a while. -/
def Machine.runKernel (p : Platform) (regs : RunRegs) (writes : List (Nat × Nat)) (m : Machine) :
    Option Machine :=
  match m.ctl with
  | .user | .dispatch .. => none
  | ctl =>
    if stackPointerOk p regs.rsp ctl then
      (scribble (m.env p).writable (stackLimit ctl) writes m.core.mem).map fun mem =>
        { m with core := { m.core with
            mem := mem
            cpu := { m.core.cpu with
              gpr := regs.gpr, rip := regs.rip, rflags := regs.rflags, rsp := regs.rsp } } }
    else none

/-- A user program runs for a while. -/
def Machine.runUser (regs : RunRegs) (m : Machine) : Option Machine :=
  match m.ctl with
  | .user => some { m with core := { m.core with
      cpu := { m.core.cpu with
        gpr := regs.gpr, rip := regs.rip, rflags := regs.rflags, rsp := regs.rsp } } }
  | _ => none

/-- `syscall`, up to the call of `syscall_dispatch`. -/
def Machine.syscallEnter (p : Platform) (m : Machine) : Option Machine :=
  match m.ctl with
  | .user => do
    let c ← exec (m.env p) 0 syscallEntry m.core.syscall
    return { m with core := c, ctl := .syscall m.core.cpu.toContext c.cpu.rsp }
  | _ => none

/-- `syscall_dispatch` returns: the stack pointer is where it was at the call, the result in
`rax`. -/
def Machine.syscallReturn (p : Platform) (scratch : Scratch) (result : Nat) (m : Machine) :
    Option Machine :=
  match m.ctl with
  | .syscall entered frame => do
    let env := m.env p
    let c ← { m.core with cpu := { m.core.cpu with rsp := frame } : Core }.call env scratch
    let c ← exec env 0 syscallExit { c with cpu := c.cpu.setReg .rax result }
    return { m with
      core := c
      ctl := .user
      returned := ⟨entered, c.cpu.toContext, result⟩ :: m.returned }
  | _ => none

/-- A call of `exit_current_task`, from a handler or a kernel task. -/
def Machine.exit (m : Machine) : Option Machine :=
  match m.ctl with
  | .kernel | .syscall .. => some { m with kernel := exitMark m.kernel, ctl := .exiting }
  | _ => none

/-- `keyboard_interrupt_handler`, with the entry and exit that the compiler adds: all registers are
saved and restored, and GS is left alone. -/
def Machine.keyboard (p : Platform) (writes : List (Nat × Nat)) (m : Machine) : Option Machine := do
  let env := m.env p
  let c ← m.core.interrupt env m.kernel.hw.privilegeStack
  let mem ← scribble env.writable c.cpu.rsp writes c.mem
  let c ← Instr.iretq.step env { c with mem := mem }
  return { m with core := c }

/-- `page_fault_handler` and `gpf_handler`, entered from ring 3 with an error code: they call
`exit_current_task`. -/
def Machine.fault (p : Platform) (errorCode : Nat) (m : Machine) : Option Machine :=
  match m.ctl with
  | .user => do
    let env := m.env p
    let c ← m.core.interrupt env m.kernel.hw.privilegeStack
    let c ← c.pushAll env [errorCode]
    return { m with core := c, kernel := exitMark m.kernel, ctl := .exiting }
  | _ => none

/-- The events of a run. -/
inductive MachineEvent
  | newTask (entry : Nat) (process : Process)
  | newUser (process : Process)
  | start
  | dispatchStep
  | timer (lockFree : Bool) (scratch : Scratch)
  | yield (lockFree : Bool) (scratch : Scratch)
  | runKernel (regs : RunRegs) (writes : List (Nat × Nat))
  | runUser (regs : RunRegs)
  | syscallEnter
  | syscallReturn (scratch : Scratch) (result : Nat)
  | exit
  | keyboard (writes : List (Nat × Nat))
  | fault (errorCode : Nat)

/-- Code that may execute `int 0x81`: the gate is closed to ring 3. -/
def Ctl.mayYield : Ctl → Bool
  | kernel | syscall .. | exiting => true
  | _ => false

/-- A program runs. -/
def Ctl.isUser : Ctl → Bool
  | user => true
  | _ => false

theorem Ctl.eq_user_of_isUser {ctl : Ctl} (h : ctl.isUser = true) : ctl = .user := by
  cases ctl with
  | user => rfl
  | _ => cases h

/-- One step. Tasks are made by the code that boots and by kernel tasks. -/
def machineStep (p : Platform) (m : Machine) : MachineEvent → Option Machine
  | .newTask entry process =>
    match m.ctl with
    | .boot | .kernel => m.newTask p entry process
    | _ => none
  | .newUser process =>
    match m.ctl with
    | .boot | .kernel => m.newUser p process
    | _ => none
  | .start =>
    match m.ctl with
    | .boot => m.start
    | _ => none
  | .dispatchStep => m.dispatchStep p
  | .timer lockFree scratch =>
    if interruptFlag m.core.cpu.rflags then m.tick p timerInterruptEntry lockFree scratch else none
  | .yield lockFree scratch =>
    if m.ctl.mayYield then m.tick p yieldInterruptEntry lockFree scratch else none
  | .runKernel regs writes => m.runKernel p regs writes
  | .runUser regs => m.runUser regs
  | .syscallEnter => m.syscallEnter p
  | .syscallReturn scratch result => m.syscallReturn p scratch result
  | .exit => m.exit
  | .keyboard writes =>
    if interruptFlag m.core.cpu.rflags then m.keyboard p writes else none
  | .fault errorCode => m.fault p errorCode

/-! ## What a step does -/

namespace MachineLemmas

/-- `start_scheduling` takes the first task of the queue. -/
theorem start_eq_some {m m' : Machine} (h : m.start = some m') :
    ∃ next rest init ctl, m.kernel.sched.tasks = next :: rest ∧ m.saved next.id = some (init, ctl) ∧
      m' = { m with
        kernel := runNext next rest m.kernel
        ctl := .dispatch (dispatchCode next.stackPtr) init
        first := some next.id } := by
  obtain ⟨⟨kernel, nextPtr⟩, hstart, h⟩ := Option.bind_eq_some_iff.mp h
  obtain ⟨id, hid, h⟩ := Option.bind_eq_some_iff.mp h
  obtain ⟨⟨init, ctl⟩, hsaved, h⟩ := Option.bind_eq_some_iff.mp h
  obtain ⟨next, rest, htasks, rfl, rfl⟩ := startScheduling_cases hstart
  cases hid
  cases h
  exact ⟨next, rest, init, ctl, htasks, hsaved, rfl⟩

theorem runKernel_eq_some {p : Platform} {m m' : Machine} {regs : RunRegs} {writes : List (Nat × Nat)}
    (h : m.runKernel p regs writes = some m') :
    m.ctl ≠ .user ∧ (∀ rest init, m.ctl ≠ .dispatch rest init) ∧ stackPointerOk p regs.rsp m.ctl = true ∧
    ∃ mem, scribble (m.env p).writable (stackLimit m.ctl) writes m.core.mem = some mem ∧
      m' = { m with core := { m.core with
        mem := mem
        cpu := { m.core.cpu with
          gpr := regs.gpr, rip := regs.rip, rflags := regs.rflags, rsp := regs.rsp } } } := by
  unfold Machine.runKernel at h
  split at h
  · cases h
  · cases h
  · next ctl huser hdispatch =>
    obtain ⟨hsp, h⟩ := Option.ite_none_right_eq_some.mp h
    obtain ⟨mem, hmem, rfl⟩ := Option.map_eq_some_iff.mp h
    exact ⟨huser, hdispatch, hsp, mem, hmem, rfl⟩

theorem runUser_eq_some {m m' : Machine} {regs : RunRegs} (h : m.runUser regs = some m') :
    m.ctl = .user ∧ m' = { m with core := { m.core with cpu := { m.core.cpu with
      gpr := regs.gpr, rip := regs.rip, rflags := regs.rflags, rsp := regs.rsp } } } := by
  unfold Machine.runUser at h
  split at h
  · next hctl =>
    cases h
    exact ⟨hctl, rfl⟩
  · cases h

theorem syscallEnter_eq_some {p : Platform} {m m' : Machine} (h : m.syscallEnter p = some m') :
    m.ctl = .user ∧ ∃ c, exec (m.env p) 0 syscallEntry m.core.syscall = some c ∧
      m' = { m with core := c, ctl := .syscall m.core.cpu.toContext c.cpu.rsp } := by
  unfold Machine.syscallEnter at h
  split at h
  · next hctl =>
    obtain ⟨c, hexec, h⟩ := Option.bind_eq_some_iff.mp h
    cases h
    exact ⟨hctl, c, hexec, rfl⟩
  · cases h

theorem syscallReturn_eq_some {p : Platform} {m m' : Machine} {scratch : Scratch} {result : Nat}
    (h : m.syscallReturn p scratch result = some m') :
    ∃ entered frame c₁ c, m.ctl = .syscall entered frame ∧
      { m.core with cpu := { m.core.cpu with rsp := frame } : Core }.call (m.env p) scratch = some c₁ ∧
      exec (m.env p) 0 syscallExit { c₁ with cpu := c₁.cpu.setReg .rax result } = some c ∧
      m' = { m with
        core := c
        ctl := .user
        returned := ⟨entered, c.cpu.toContext, result⟩ :: m.returned } := by
  unfold Machine.syscallReturn at h
  split at h
  · next entered frame hctl =>
    obtain ⟨c₁, hcall, h⟩ := Option.bind_eq_some_iff.mp h
    obtain ⟨c, hexec, h⟩ := Option.bind_eq_some_iff.mp h
    cases h
    exact ⟨entered, frame, c₁, c, hctl, hcall, hexec, rfl⟩
  · cases h

theorem exit_eq_some {m m' : Machine} (h : m.exit = some m') :
    (m.ctl = .kernel ∨ ∃ entered frame, m.ctl = .syscall entered frame) ∧
      m' = { m with kernel := exitMark m.kernel, ctl := .exiting } := by
  unfold Machine.exit at h
  split at h
  · next hctl =>
    cases h
    exact ⟨.inl hctl, rfl⟩
  · next entered frame hctl =>
    cases h
    exact ⟨.inr ⟨entered, frame, hctl⟩, rfl⟩
  · cases h

theorem fault_eq_some {p : Platform} {m m' : Machine} {errorCode : Nat}
    (h : m.fault p errorCode = some m') :
    m.ctl = .user ∧ ∃ c₁ c, m.core.interrupt (m.env p) m.kernel.hw.privilegeStack = some c₁ ∧
      c₁.pushAll (m.env p) [errorCode] = some c ∧
      m' = { m with core := c, kernel := exitMark m.kernel, ctl := .exiting } := by
  unfold Machine.fault at h
  split at h
  · next hctl =>
    obtain ⟨c₁, hint, h⟩ := Option.bind_eq_some_iff.mp h
    obtain ⟨c, hpush, h⟩ := Option.bind_eq_some_iff.mp h
    cases h
    exact ⟨hctl, c₁, c, hint, hpush, rfl⟩
  · cases h

theorem goOn_rest (m : Machine) :
    m.goOn.core = m.core ∧ m.goOn.kernel = m.kernel ∧ m.goOn.saved = m.saved := by
  unfold Machine.goOn
  split
  · split <;> exact ⟨rfl, rfl, rfl⟩
  · exact ⟨rfl, rfl, rfl⟩

end MachineLemmas

end Turnix
