import Turnix.Lib.Run

/-!
# The scheduler

`task/scheduler.rs` with the parts of `task/mod.rs` and `gdt.rs` it drives: the ready queue, the
task on the CPU, and the three places that have to follow it (CR3, the TSS stack for interrupts
and the `PER_CPU` stack for system calls).

`SCHEDULER` is a spin lock. Every caller but `timer_tick` waits for it, so these are plain
functions of the state; `timer_tick` uses `try_lock`, and whether the lock is free is an argument.
-/

namespace Turnix

/-- `TaskState`. -/
inductive TaskState
  | ready
  | running
  | blocked
  | zombie
deriving DecidableEq, Repr

/-- `TaskId`, a counter value that starts at 1. -/
abbrev TaskId := Nat

/-- `ProcessInner`, less its id and its list of threads, which nothing reads. -/
structure Process where
  pml4Frame : Nat
  entryPoint : Nat
  stackTop : Nat
deriving DecidableEq, Repr

/-- `Task`. -/
structure Task where
  id : TaskId
  stackPtr : Nat
  kernelStackTop : Nat
  process : Process
  state : TaskState
deriving DecidableEq, Repr

/-- `Scheduler`. -/
structure Scheduler where
  tasks : List Task
  currentTask : Option Task
  taskCount : Nat
  currentTaskId : Option TaskId
deriving DecidableEq, Repr

/-- `Scheduler::new`. -/
def Scheduler.new : Scheduler := ⟨[], none, 0, none⟩

/-- The CPU state a switch sets: CR3, `TSS.privilege_stack_table[0]` and
`PER_CPU.kernel_stack_ptr`. -/
structure Hardware where
  cr3 : Nat
  privilegeStack : Nat
  kernelStackPtr : Nat
deriving DecidableEq, Repr

/-- The scheduler, the tick counter and the CPU state it keeps in step. -/
structure Kernel where
  sched : Scheduler
  uptimeTicks : Nat
  hw : Hardware
deriving DecidableEq, Repr

/-- `gdt::set_interrupt_stack`. -/
def setInterruptStack (stackTop : Nat) (hw : Hardware) : Hardware :=
  { hw with privilegeStack := stackTop, kernelStackPtr := stackTop }

/-- `Task::switch_to`. -/
def Task.switchTo (task : Task) (hw : Hardware) : Hardware :=
  let hw := setInterruptStack task.kernelStackTop hw
  if hw.cr3 ≠ task.process.pml4Frame then { hw with cr3 := task.process.pml4Frame } else hw

/-- `add_task`. -/
def addTask (task : Task) (k : Kernel) : Kernel :=
  { k with sched := { k.sched with
      tasks := k.sched.tasks ++ [task]
      taskCount := k.sched.taskCount + 1 } }

/-- Put `next` on the CPU; `start_scheduling` and `timer_tick` do this with the task they popped. -/
def runNext (next : Task) (rest : List Task) (k : Kernel) : Kernel :=
  { k with
    hw := next.switchTo k.hw
    sched := { k.sched with
      tasks := rest
      currentTask := some { next with state := .running }
      currentTaskId := some next.id } }

/-- The id of the current task. -/
def Kernel.currentId (k : Kernel) : Option TaskId := k.sched.currentTask.map Task.id

/-- `start_scheduling`, up to its jump: the stack pointer to load, or `none` for its panic. -/
def startScheduling (k : Kernel) : Option (Kernel × Nat) :=
  match k.sched.tasks with
  | [] => none
  | next :: rest => if next.stackPtr ≠ 0 then some (runNext next rest k, next.stackPtr) else none

/-- How a `timer_tick` ends: it returns a stack pointer, or the last task has exited and it stays
in its `hlt` loop, with the scheduler locked. -/
inductive Tick
  | ret (k : Kernel) (stackPtr : Nat)
  | halt
deriving DecidableEq, Repr

/-- `timer_tick`; `lockFree` says whether its `try_lock` succeeds. -/
def timerTick (lockFree : Bool) (currentStackPtr : Nat) (k : Kernel) : Tick :=
  let k := { k with uptimeTicks := (k.uptimeTicks + 1) % 2 ^ 64 }
  if lockFree then
    match k.sched.currentTask with
    | none => .ret k currentStackPtr
    | some prev =>
      let prev := { prev with stackPtr := currentStackPtr }
      match k.sched.tasks with
      | next :: rest =>
        -- a task that is blocked or a zombie is not put back
        let rest := if prev.state = .running then rest ++ [{ prev with state := .ready }] else rest
        .ret (runNext next rest k) next.stackPtr
      | [] =>
        if prev.state = .zombie then .halt
        else .ret { k with sched := { k.sched with
            currentTask := some prev
            currentTaskId := some prev.id } } currentStackPtr
  else .ret k currentStackPtr

/-- The mark `exit_current_task` sets before it yields. -/
def exitMark (k : Kernel) : Kernel :=
  { k with sched := { k.sched with
      currentTask := k.sched.currentTask.map fun t => { t with state := .zombie } } }

/-- `get_uptime_ticks`. -/
def getUptimeTicks (k : Kernel) : Nat := k.uptimeTicks

/-- `get_task_count`. -/
def getTaskCount (k : Kernel) : Nat := k.sched.taskCount

/-- `get_current_task_id`. -/
def getCurrentTaskId (k : Kernel) : Option TaskId := k.sched.currentTaskId

/-! ## What a tick and the start can do -/

theorem timerTick_cases {lockFree : Bool} {sp sp' : Nat} {k k' : Kernel}
    (h : timerTick lockFree sp k = .ret k' sp') :
    -- nothing: the lock is taken, or nothing runs yet
    (k' = { k with uptimeTicks := (k.uptimeTicks + 1) % 2 ^ 64 } ∧ sp' = sp ∧
      (lockFree = false ∨ k.sched.currentTask = none)) ∨
    -- a switch
    (∃ prev next rest, lockFree = true ∧ k.sched.currentTask = some prev ∧
      k.sched.tasks = next :: rest ∧ sp' = next.stackPtr ∧
      k' = runNext next
        (if prev.state = .running then
          rest ++ [{ prev with stackPtr := sp, state := .ready }] else rest)
        { k with uptimeTicks := (k.uptimeTicks + 1) % 2 ^ 64 }) ∨
    -- the only task goes on
    (∃ prev, lockFree = true ∧ k.sched.currentTask = some prev ∧ k.sched.tasks = [] ∧
      prev.state ≠ .zombie ∧ sp' = sp ∧
      k' = { k with
        uptimeTicks := (k.uptimeTicks + 1) % 2 ^ 64
        sched := { k.sched with
          currentTask := some { prev with stackPtr := sp }
          currentTaskId := some prev.id } }) := by
  unfold timerTick at h
  cases lockFree with
  | false =>
    simp only [Bool.false_eq_true, ↓reduceIte, Tick.ret.injEq] at h
    exact .inl ⟨h.1.symm, h.2.symm, .inl rfl⟩
  | true =>
    simp only [↓reduceIte] at h
    split at h
    · next hc =>
      simp only [Tick.ret.injEq] at h
      exact .inl ⟨h.1.symm, h.2.symm, .inr hc⟩
    · next prev hc =>
      split at h
      · next next rest ht =>
        simp only [Tick.ret.injEq] at h
        exact .inr (.inl ⟨prev, next, rest, rfl, hc, ht, h.2.symm, h.1.symm⟩)
      · next ht =>
        split at h
        · cases h
        · next hz =>
          simp only [Tick.ret.injEq] at h
          exact .inr (.inr ⟨prev, rfl, hc, ht, hz, h.2.symm, h.1.symm⟩)

theorem startScheduling_cases {k k' : Kernel} {sp : Nat} (h : startScheduling k = some (k', sp)) :
    ∃ next rest, k.sched.tasks = next :: rest ∧ sp = next.stackPtr ∧ k' = runNext next rest k := by
  unfold startScheduling at h
  split at h
  · cases h
  · next next rest ht =>
    obtain ⟨-, h⟩ := Option.ite_none_right_eq_some.mp h
    cases h
    exact ⟨next, rest, ht, rfl, rfl⟩

end Turnix
