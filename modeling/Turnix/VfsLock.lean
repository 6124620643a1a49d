import Turnix.SchedulerRuns
import Turnix.Syscall

/-!
# The lock of the VFS

`VFS` is a spin lock. `heartbeat_task` takes it with interrupts enabled; the handlers of nine system
calls take it with interrupts masked, since `SFMASK` clears the flag and nothing sets it again before
the handler returns, exits or yields. One CPU runs the tasks; `timer_tick` switches between them.

A timer interrupt that switches away from `heartbeat_task` while it holds the lock leaves the lock with
a task in the queue. The next program that opens a file then spins in its handler for good: the timer is
masked, so nobody else runs (`heartbeat_preempted_deadlocks`, `deadlock_permanent`). The paths that take
the lock of the scheduler are not exposed to this, they run `without_interrupts`. If no tick switches
away from the holder, no run comes to such a state (`no_vfs_deadlock`).
-/

namespace Turnix

open Lib

/-! ## Where a task is -/

/-- The handler gets as far as `VFS.lock()`. Only `handle_ls` takes the lock before it makes its slice. -/
def takesVfs (args : SyscallArgs) : Syscall → Bool
  | .read | .writeFile => args.arg1 ≠ 0 ∧ args.arg2 ≠ 0 ∧ args.arg2 ≤ isizeMax
  | .open | .mkdir | .unlink => args.arg0 ≠ 0 ∧ args.arg1 ≠ 0 ∧ args.arg1 ≤ isizeMax
  | .ls => args.arg0 ≠ 0 ∧ args.arg1 ≠ 0
  | .stat => args.arg0 ≠ 0 ∧ args.arg1 ≠ 0 ∧ args.arg2 ≠ 0 ∧ args.arg1 ≤ isizeMax
  | .close | .seek => true
  | _ => false

/-- `heartbeat_task`: what it does next. -/
inductive HeartbeatAt
  /-- `VFS.lock()` -/
  | lock
  /-- `vfs.open("initramfs.txt")` -/
  | open
  /-- `vfs.read(fd, &mut buf)` -/
  | read (fd : Nat)
  /-- the end of the block: the guard is dropped -/
  | unlock
  /-- the top of the loop -/
  | count (counter : Nat)
  /-- `yield_task()` -/
  | yield (counter : Nat)
deriving DecidableEq, Repr

/-- A handler: what it does next. -/
inductive HandlerAt
  /-- `VFS.lock()` -/
  | lock
  /-- the rest, behind `VFS.lock()`; the guard is dropped at its end -/
  | body
  /-- `yield_task()` -/
  | yield
  /-- the way back to the program -/
  | ret
deriving DecidableEq, Repr

/-- The code a task is in. -/
inductive Point
  | heartbeat (pc : HeartbeatAt)
  | worker (counter : Nat)
  | idle
  /-- a program, in ring 3 -/
  | user
  | handler (call : Syscall) (args : SyscallArgs) (pc : HandlerAt)
  /-- `exit_current_task`, from a handler or a fault -/
  | exiting
deriving DecidableEq, Repr

/-- Interrupts are masked: behind `syscall` and behind the gate of a fault. -/
def Point.masked : Point → Bool
  | handler .. | exiting => true
  | _ => false

/-- The code has the guard of `VFS.lock()`. -/
def Point.holds : Point → Bool
  | heartbeat .open | heartbeat (.read _) | heartbeat .unlock => true
  | handler _ _ .body => true
  | _ => false

/-- What a task is created with: one of the kernel's functions, or a program. -/
inductive TaskEntry
  | heartbeat
  | worker
  | idle
  | user
deriving DecidableEq, Repr

/-- Where a task starts. -/
def TaskEntry.point : TaskEntry → Point
  | heartbeat => .heartbeat .lock
  | worker => .worker 0
  | idle => .idle
  | user => .user

/-- The system, the task that holds the lock of the VFS, and where each task is. -/
structure LockState where
  sys : SysState
  lock : Option TaskId
  points : TaskId → Option Point

namespace LockState

/-- The current task. -/
def current (s : LockState) : Option TaskId := s.sys.kernel.currentId

/-- The task goes to `pt`. -/
def goTo (task : TaskId) (pt : Point) (s : LockState) : LockState :=
  { s with points := Function.update s.points task (some pt) }

/-- One round of the loop in `VFS.lock()`: on to `pt` if the lock is free. -/
def tryLock (task : TaskId) (pt : Point) (s : LockState) : LockState :=
  match s.lock with
  | none => { s.goTo task pt with lock := some task }
  | some _ => s

/-- `serial::print`. -/
def print (msg : String) (s : LockState) : LockState :=
  { s with sys := { s.sys with serial := s.sys.serial ++ [msg] } }

/-- `timer_tick`. -/
def tick (lockFree : Bool) (sp : Nat) (s : LockState) : Option LockState :=
  match timerTick lockFree sp s.sys.kernel with
  | .ret kernel _ => some { s with sys := { s.sys with kernel := kernel } }
  | .halt => none

end LockState

/-! ## Steps -/

/-- One step of `heartbeat_task`. -/
def heartbeatStep (task : TaskId) (lockFree : Bool) (sp : Nat) (s : LockState) :
    HeartbeatAt → Option LockState
  | .lock => some (s.tryLock task (.heartbeat .open))
  | .open =>
    let r := s.sys.vfs.open "initramfs.txt"
    let s := { s with sys := { s.sys with vfs := r.2 } }
    match r.1 with
    | some fd => some (s.goTo task (.heartbeat (.read fd)))
    | none => some ((s.print "[vfs] initramfs.txt not found\n").goTo task (.heartbeat .unlock))
  | .read fd =>
    let r := s.sys.vfs.read s.sys.term fd (List.replicate 64 0)
    let s := { s with sys := { s.sys with vfs := r.vfs, term := r.term } }
    match r.ret with
    | some len =>
      let content := (fromUtf8 (r.buf.take len)).getD "INVALID UTF-8"
      some ((s.print s!"[vfs:initramfs.txt] {content}\n").goTo task (.heartbeat .unlock))
    | none => some (s.goTo task (.heartbeat .unlock))
  | .unlock => some { s.goTo task (.heartbeat (.count 0)) with lock := none }
  | .count counter =>
    let counter := (counter + 1) % 2 ^ 64
    let s := if counter % 64 = 0 then s.print s!"[task:heartbeat {counter}]\n" else s
    some (s.goTo task (.heartbeat (.yield counter)))
  | .yield counter => (s.goTo task (.heartbeat (.count counter))).tick lockFree sp

/-- One step of `worker_task`. -/
def workerStep (task : TaskId) (counter : Nat) (s : LockState) : LockState :=
  let counter := (counter + 1) % 2 ^ 64
  let s := if counter % 256 = 0 then s.print "w" else s
  s.goTo task (.worker counter)

/-- A handler ends, and leaves the lock as `lock`. -/
def handlerEnd (task : TaskId) (lock : Option TaskId) (s : LockState) :
    Outcome SyscallResult → Option LockState
  | .ret _ sys => some ({ s with sys := sys, lock := lock }.goTo task .user)
  | .exited sys => some ({ s with sys := sys, lock := lock }.goTo task .exiting)
  | .panic _ => none

/-- One step of a handler. -/
def handlerStep (task : TaskId) (call : Syscall) (args : SyscallArgs) (lockFree : Bool) (sp : Nat)
    (s : LockState) : HandlerAt → Option LockState
  | .lock => some (s.tryLock task (.handler call args .body))
  | .body => handlerEnd task none s (handleSyscall id call args s.sys)
  | .yield => (s.goTo task (.handler call args .ret)).tick lockFree sp
  | .ret => some (s.goTo task .user)

/-- The current task executes its next step. A program does nothing here: it calls the kernel by
`LockEvent.syscall`. -/
def runCurrent (task : TaskId) (lockFree : Bool) (sp : Nat) (s : LockState) :
    Point → Option LockState
  | .heartbeat pc => heartbeatStep task lockFree sp s pc
  | .worker counter => some (workerStep task counter s)
  | .idle | .user => some s
  | .handler call args pc => handlerStep task call args lockFree sp s pc
  | .exiting => s.tick lockFree sp

/-- A program executes `syscall`; `mem` is its memory, and `room` what the heap can serve. -/
def enterHandler (task : TaskId) (call : Syscall) (args : SyscallArgs) (mem : Nat → UInt8) (room : Nat → Bool)
    (s : LockState) : Option LockState :=
  let s := { s with sys := { s.sys with mem := mem, room := room } }
  if takesVfs args call then some (s.goTo task (.handler call args .lock))
  else if call = .yielder ∧ args.arg0 ≠ 0 then some (s.goTo task (.handler call args .yield))
  else handlerEnd task s.lock s (handleSyscall id call args s.sys)

/-- The events of a run. -/
inductive LockEvent
  | newTask (new : NewTask) (entry : TaskEntry)
  | start
  | run (lockFree : Bool) (sp : Nat)
  | timer (lockFree : Bool) (sp : Nat)
  | syscall (call : Syscall) (args : SyscallArgs) (mem : Nat → UInt8) (room : Nat → Bool)
  | fault

/-- One step. Tasks are made by `kernel_main`, before it starts the scheduler. -/
def lockStep (s : LockState) : LockEvent → Option LockState
  | .newTask new entry =>
    if s.current = none ∧ s.points new.task.id = none then
      some ({ s with sys := { s.sys with kernel := addTask new.task s.sys.kernel } }.goTo
        new.task.id entry.point)
    else none
  | .start =>
    if s.current = none then
      (startScheduling s.sys.kernel).map fun r => { s with sys := { s.sys with kernel := r.1 } }
    else none
  | .run lockFree sp => do
    let task ← s.current
    let pt ← s.points task
    runCurrent task lockFree sp s pt
  | .timer lockFree sp =>
    match s.current.bind s.points with
    | some pt => if pt.masked then none else s.tick lockFree sp
    | none => s.tick lockFree sp
  | .syscall call args mem room => do
    let task ← s.current
    let pt ← s.points task
    if pt = .user then enterHandler task call args mem room s else none
  | .fault => do
    let task ← s.current
    let pt ← s.points task
    if pt = .user then some ({ s with sys := exitCurrentTask s.sys }.goTo task .exiting) else none

/-- The state in which `kernel_main` makes the tasks. -/
def LockState.init (vfs : Vfs) (term : Terminal) (hw : Hardware) : LockState where
  sys := ⟨vfs, term, ⟨Scheduler.new, 0, hw⟩, fun _ => 0, ample, [], []⟩
  lock := none
  points := fun _ => none

/-- The current task spins in a handler, and another one has the lock. -/
def Deadlocked (s : LockState) : Prop :=
  ∃ task holder call args, s.current = some task ∧ s.points task = some (.handler call args .lock) ∧
    s.lock = some holder ∧ holder ≠ task

/-- A timer interrupt switches away from the task that has the lock. -/
def Preempts (s : LockState) : LockEvent → Prop
  | .timer lockFree _ =>
    lockFree = true ∧ s.sys.kernel.sched.tasks ≠ [] ∧ s.lock ≠ none ∧ s.lock = s.current
  | _ => False

instance (s : LockState) (e : LockEvent) : Decidable (Preempts s e) := by
  cases e <;> unfold Preempts <;> infer_instance

/-- The task that has the lock is the current one, and in code that has taken it. -/
def LockInv (s : LockState) : Prop :=
  ∀ holder, s.lock = some holder → s.current = some holder ∧
    ∃ pt, s.points holder = some pt ∧ pt.holds = true

namespace LockLemmas

/-! ## The holder is the current task -/

theorem lockInv_of_free {s : LockState} (h : s.lock = none) : LockInv s := by
  intro holder hl
  rw [h] at hl
  cases hl

/-- Nobody has the lock if the current task is in code that has not taken it. -/
theorem lock_free {s : LockState} (hs : LockInv s) {task : TaskId} {pt : Point}
    (hcur : s.current = some task) (hpt : s.points task = some pt) (hno : pt.holds = false) :
    s.lock = none := by
  cases hl : s.lock with
  | none => rfl
  | some holder =>
    obtain ⟨hcur', pt', hpt', hholds⟩ := hs holder hl
    rw [hcur] at hcur'
    cases hcur'
    rw [hpt] at hpt'
    cases hpt'
    rw [hno] at hholds
    cases hholds

theorem lock_free_of_idle {s : LockState} (hs : LockInv s) (hcur : s.current = none) :
    s.lock = none := by
  cases hl : s.lock with
  | none => rfl
  | some holder =>
    obtain ⟨hcur', -⟩ := hs holder hl
    rw [hcur] at hcur'
    cases hcur'

/-- The holder goes on to other code that has the lock. -/
theorem lockInv_goTo {s s' : LockState} {task : TaskId} {pt : Point} (hs : LockInv s)
    (hcur : s.current = some task) (hpt : pt.holds = true) (hlock : s'.lock = s.lock)
    (hcur' : s'.current = s.current)
    (hpts : s'.points = Function.update s.points task (some pt)) : LockInv s' := by
  intro holder hl
  rw [hlock] at hl
  obtain ⟨hc, -⟩ := hs holder hl
  obtain rfl : task = holder := Option.some.inj (hcur.symm.trans hc)
  refine ⟨hcur'.trans hc, pt, ?_, hpt⟩
  rw [hpts, Function.update_self]

theorem tryLock_inv {s : LockState} {task : TaskId} {pt : Point} (hs : LockInv s)
    (hcur : s.current = some task) (hpt : pt.holds = true) : LockInv (s.tryLock task pt) := by
  unfold LockState.tryLock
  split
  · rintro holder ⟨⟩
    refine ⟨hcur, pt, ?_, hpt⟩
    exact Function.update_self ..
  · exact hs

theorem tick_lock {s s' : LockState} {lockFree : Bool} {sp : Nat}
    (h : s.tick lockFree sp = some s') : s'.lock = s.lock ∧ s'.points = s.points := by
  unfold LockState.tick at h
  split at h
  · cases h
    exact ⟨rfl, rfl⟩
  · cases h

/-- A tick that does not switch. -/
theorem tick_current {s s' : LockState} {lockFree : Bool} {sp : Nat}
    (h : s.tick lockFree sp = some s') (hstay : lockFree = false ∨ s.sys.kernel.sched.tasks = []) :
    s'.current = s.current := by
  unfold LockState.tick at h
  split at h
  · next kernel nextStack htick =>
    cases h
    show kernel.currentId = s.sys.kernel.currentId
    rcases timerTick_cases htick with ⟨rfl, -⟩ | ⟨prev, next, rest, hfree, hc, ht, -⟩ |
      ⟨prev, -, hc, -, -, -, rfl⟩
    · rfl
    · rcases hstay with hno | hno
      · rw [hno] at hfree
        cases hfree
      · rw [hno] at ht
        cases ht
    · unfold Kernel.currentId
      rw [hc]
      rfl
  · cases h

theorem heartbeatStep_inv {s s' : LockState} {task : TaskId} {lockFree : Bool} {sp : Nat}
    {pc : HeartbeatAt} (hs : LockInv s) (hcur : s.current = some task)
    (hpt : s.points task = some (.heartbeat pc)) (h : heartbeatStep task lockFree sp s pc = some s') :
    LockInv s' := by
  cases pc with
  | lock =>
    cases h
    exact tryLock_inv hs hcur rfl
  | «open» =>
    unfold heartbeatStep at h
    dsimp only at h
    split at h <;> cases h <;> exact lockInv_goTo hs hcur rfl rfl rfl rfl
  | read fd =>
    unfold heartbeatStep at h
    dsimp only at h
    split at h <;> cases h <;> exact lockInv_goTo hs hcur rfl rfl rfl rfl
  | unlock =>
    cases h
    exact lockInv_of_free rfl
  | count counter =>
    cases h
    have hfree := lock_free hs hcur hpt rfl
    refine lockInv_of_free ?_
    unfold LockState.goTo LockState.print
    dsimp only
    split <;> exact hfree
  | yield counter =>
    have hfree := lock_free hs hcur hpt rfl
    exact lockInv_of_free ((tick_lock h).1.trans hfree)

theorem handlerEnd_lock {s s' : LockState} {task : TaskId} {lock : Option TaskId}
    {out : Outcome SyscallResult} (h : handlerEnd task lock s out = some s') : s'.lock = lock := by
  cases out <;> cases h <;> rfl

theorem handlerStep_inv {s s' : LockState} {task : TaskId} {call : Syscall} {args : SyscallArgs}
    {lockFree : Bool} {sp : Nat} {pc : HandlerAt} (hs : LockInv s) (hcur : s.current = some task)
    (hpt : s.points task = some (.handler call args pc))
    (h : handlerStep task call args lockFree sp s pc = some s') : LockInv s' := by
  cases pc with
  | lock =>
    cases h
    exact tryLock_inv hs hcur rfl
  | body => exact lockInv_of_free (handlerEnd_lock h)
  | yield =>
    have hfree := lock_free hs hcur hpt rfl
    exact lockInv_of_free ((tick_lock h).1.trans hfree)
  | ret =>
    cases h
    have hfree := lock_free hs hcur hpt rfl
    exact lockInv_of_free hfree

theorem runCurrent_inv {s s' : LockState} {task : TaskId} {lockFree : Bool} {sp : Nat} {pt : Point}
    (hs : LockInv s) (hcur : s.current = some task) (hpt : s.points task = some pt)
    (h : runCurrent task lockFree sp s pt = some s') : LockInv s' := by
  cases pt with
  | heartbeat pc => exact heartbeatStep_inv hs hcur hpt h
  | worker counter =>
    cases h
    have hfree := lock_free hs hcur hpt rfl
    refine lockInv_of_free ?_
    unfold workerStep LockState.goTo LockState.print
    dsimp only
    split <;> exact hfree
  | idle =>
    cases h
    exact hs
  | user =>
    cases h
    exact hs
  | handler call args pc => exact handlerStep_inv hs hcur hpt h
  | exiting => exact lockInv_of_free ((tick_lock h).1.trans (lock_free hs hcur hpt rfl))

theorem timer_inv {s s' : LockState} {lockFree : Bool} {sp : Nat} (hs : LockInv s)
    (hkeep : ¬ Preempts s (.timer lockFree sp)) (h : s.tick lockFree sp = some s') :
    LockInv s' := by
  obtain ⟨hlock, hpts⟩ := tick_lock h
  intro holder hl
  rw [hlock] at hl
  obtain ⟨hcur, hpt⟩ := hs holder hl
  have hstay : lockFree = false ∨ s.sys.kernel.sched.tasks = [] := by
    by_contra hcon
    rw [not_or, Bool.not_eq_false] at hcon
    exact hkeep ⟨hcon.1, hcon.2, by rw [hl]; nofun, hl.trans hcur.symm⟩
  rw [tick_current h hstay, hpts]
  exact ⟨hcur, hpt⟩

/-- The step lemma. -/
theorem lockStep_inv (s : LockState) (e : LockEvent) (s' : LockState) (hs : LockInv s)
    (hkeep : ¬ Preempts s e) (h : lockStep s e = some s') : LockInv s' := by
  cases e with
  | newTask new entry =>
    obtain ⟨⟨hidle, -⟩, h⟩ := Option.ite_none_right_eq_some.mp h
    cases h
    have hfree := lock_free_of_idle hs hidle
    exact lockInv_of_free hfree
  | start =>
    obtain ⟨hidle, h⟩ := Option.ite_none_right_eq_some.mp h
    obtain ⟨r, -, rfl⟩ := Option.map_eq_some_iff.mp h
    have hfree := lock_free_of_idle hs hidle
    exact lockInv_of_free hfree
  | run lockFree sp =>
    obtain ⟨task, hcur, h⟩ := Option.bind_eq_some_iff.mp h
    obtain ⟨pt, hpt, h⟩ := Option.bind_eq_some_iff.mp h
    exact runCurrent_inv hs hcur hpt h
  | timer lockFree sp =>
    simp only [lockStep] at h
    split at h
    · split at h
      · cases h
      · exact timer_inv hs hkeep h
    · exact timer_inv hs hkeep h
  | syscall call args mem =>
    obtain ⟨task, hcur, h⟩ := Option.bind_eq_some_iff.mp h
    obtain ⟨pt, hpt, h⟩ := Option.bind_eq_some_iff.mp h
    obtain ⟨rfl, henter⟩ := Option.ite_none_right_eq_some.mp h
    have hfree := lock_free hs hcur hpt rfl
    refine lockInv_of_free ?_
    unfold enterHandler at henter
    dsimp only at henter
    split at henter
    · cases henter
      exact hfree
    · split at henter
      · cases henter
        exact hfree
      · exact (handlerEnd_lock henter).trans hfree
  | fault =>
    obtain ⟨task, hcur, h⟩ := Option.bind_eq_some_iff.mp h
    obtain ⟨pt, hpt, h⟩ := Option.bind_eq_some_iff.mp h
    obtain ⟨rfl, h⟩ := Option.ite_none_right_eq_some.mp h
    cases h
    have hfree := lock_free hs hcur hpt rfl
    exact lockInv_of_free hfree

theorem not_deadlocked {s : LockState} (hs : LockInv s) : ¬ Deadlocked s := by
  rintro ⟨task, holder, call, args, hcur, -, hlock, hne⟩
  obtain ⟨hcur', -⟩ := hs holder hlock
  exact hne (Option.some.inj (hcur'.symm.trans hcur))

/-- A deadlock is not left: the timer is masked, and a round of the spin loop changes nothing. -/
theorem deadlocked_step {s : LockState} (hd : Deadlocked s) (e : LockEvent) (s' : LockState)
    (h : lockStep s e = some s') : s' = s := by
  obtain ⟨task, holder, call, args, hcur, hpt, hlock, -⟩ := hd
  cases e with
  | newTask new entry =>
    obtain ⟨⟨hidle, -⟩, -⟩ := Option.ite_none_right_eq_some.mp h
    rw [hcur] at hidle
    cases hidle
  | start =>
    obtain ⟨hidle, -⟩ := Option.ite_none_right_eq_some.mp h
    rw [hcur] at hidle
    cases hidle
  | run lockFree sp =>
    simp only [lockStep, hcur, hpt, bind, Option.bind_some, runCurrent, handlerStep,
      LockState.tryLock, hlock] at h
    exact (Option.some.inj h).symm
  | timer lockFree sp =>
    simp only [lockStep, hcur, hpt, Option.bind_some, Point.masked, ↓reduceIte] at h
    cases h
  | syscall call' args' mem =>
    simp only [lockStep, hcur, hpt, bind, Option.bind_some, reduceCtorEq, ↓reduceIte] at h
  | fault =>
    simp only [lockStep, hcur, hpt, bind, Option.bind_some, reduceCtorEq, ↓reduceIte] at h

end LockLemmas

open LockLemmas

/-- Whatever happens, a deadlock stays as it is. -/
theorem deadlock_permanent {s s' : LockState} (hd : Deadlocked s) (es : List LockEvent)
    (h : run lockStep s es = some s') : s' = s := by
  have hstep : ∀ t e t', t = s → lockStep t e = some t' → t' = s := by
    rintro t e t' rfl ht
    exact deadlocked_step hd e t' ht
  exact run_invariant (P := fun t => t = s) hstep rfl h

/-- In every run in which no timer interrupt switches away from the task that has the lock, no state
is a deadlock. -/
theorem no_vfs_deadlock (vfs : Vfs) (term : Terminal) (hw : Hardware) (es : List LockEvent)
    (s : LockState)
    (hkeep : AllSteps lockStep (fun s e => ¬ Preempts s e) (LockState.init vfs term hw) es)
    (h : run lockStep (LockState.init vfs term hw) es = some s) : ¬ Deadlocked s :=
  not_deadlocked (run_invariant_of lockStep_inv (lockInv_of_free rfl) hkeep h)

/-! ## Two runs -/

/-- A new task. -/
def readyTask (id : TaskId) : NewTask := ⟨⟨id, 8, 16, ⟨0, 0, 0⟩, .ready⟩, rfl⟩

/-- The program `init` and `heartbeat_task`; the timer comes when `heartbeat_task` is done with the
VFS, and `init` opens a file. -/
def calmEvents : List LockEvent :=
  [.newTask (readyTask 1) .user, .newTask (readyTask 2) .heartbeat, .start, .timer true 8] ++
    List.replicate 3 (.run true 8) ++ [.timer true 8, .syscall .open ⟨1, 1, 0, 0⟩ (fun _ => 65) ample,
      .run true 8, .run true 8]

theorem no_vfs_deadlock_sample : ∃ s,
    run lockStep (LockState.init Vfs.new ⟨⟨"", []⟩, none⟩ ⟨0, 0, 0⟩) calmEvents = some s ∧
    s.points 2 = some (.heartbeat (.count 0)) ∧ s.points 1 = some .user ∧ ¬ Deadlocked s := by
  have hkeep : AllSteps lockStep (fun s e => ¬ Preempts s e)
      (LockState.init Vfs.new ⟨⟨"", []⟩, none⟩ ⟨0, 0, 0⟩) calmEvents := by
    decide +kernel
  have hrun : (run lockStep (LockState.init Vfs.new ⟨⟨"", []⟩, none⟩ ⟨0, 0, 0⟩) calmEvents).map
      (fun s => (s.points 2, s.points 1)) = some (some (.heartbeat (.count 0)), some .user) := by
    decide +kernel
  obtain ⟨s, hs, heq⟩ := Option.map_eq_some_iff.mp hrun
  obtain ⟨hpt, hpt'⟩ := Prod.mk.inj heq
  exact ⟨s, hs, hpt, hpt', no_vfs_deadlock Vfs.new ⟨⟨"", []⟩, none⟩ ⟨0, 0, 0⟩ calmEvents s hkeep hs⟩

/-- The timer comes when `heartbeat_task` has just taken the lock, and `init` opens a file. -/
def deadlockEvents : List LockEvent :=
  [.newTask (readyTask 1) .user, .newTask (readyTask 2) .heartbeat, .start, .timer true 8,
    .run true 8, .timer true 8, .syscall .open ⟨1, 1, 0, 0⟩ (fun _ => 65) ample]

/-- `init` spins in `handle_open`, the lock is with `heartbeat_task` in the queue, and nothing else
will ever happen. -/
theorem heartbeat_preempted_deadlocks : ∃ s,
    run lockStep (LockState.init Vfs.new ⟨⟨"", []⟩, none⟩ ⟨0, 0, 0⟩) deadlockEvents = some s ∧
    s.current = some 1 ∧ s.points 1 = some (.handler .open ⟨1, 1, 0, 0⟩ .lock) ∧ s.lock = some 2 ∧
    s.points 2 = some (.heartbeat .open) ∧ s.sys.kernel.sched.tasks.map Task.id = [2] ∧
    Deadlocked s ∧ ∀ es s', run lockStep s es = some s' → s' = s := by
  have hrun : (run lockStep (LockState.init Vfs.new ⟨⟨"", []⟩, none⟩ ⟨0, 0, 0⟩) deadlockEvents).map
      (fun s => (s.current, s.points 1, s.lock, s.points 2, s.sys.kernel.sched.tasks.map Task.id)) =
      some (some 1, some (.handler .open ⟨1, 1, 0, 0⟩ .lock), some 2, some (.heartbeat .open), [2]) := by
    decide +kernel
  obtain ⟨s, hs, heq⟩ := Option.map_eq_some_iff.mp hrun
  simp only [Prod.mk.injEq] at heq
  obtain ⟨hcur, hpt, hlock, hpt', hqueue⟩ := heq
  have hd : Deadlocked s := ⟨1, 2, _, _, hcur, hpt, hlock, by decide⟩
  exact ⟨s, hs, hcur, hpt, hlock, hpt', hqueue, hd, fun es s' h => deadlock_permanent hd es h⟩

end Turnix
