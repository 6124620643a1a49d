import Mathlib.Logic.Function.Basic
import Turnix.SchedulerRuns

/-!
# Context switches

What `timer_tick` puts on the CPU, over the runs of `SchedulerRuns`. The registers that a switch sets (CR3,
the stack for interrupts and the stack for system calls) are those of the current task at every point after
`start_scheduling`, and a tick resumes a task where it was suspended (`hardware_context`). Tasks come to the
CPU in the order of the queue, one for each tick that takes the lock (`round_robin`).
-/

namespace Turnix

open Lib

/-- A run, with the stack pointer at which each task was last suspended; for one that never ran it is the
initial one. -/
structure SwitchRun where
  run : SchedRun
  saved : TaskId → Option Nat

def SwitchRun.init (hw : Hardware) : SwitchRun := ⟨SchedRun.init hw, fun _ => none⟩

/-- The stack pointers after an event. A tick that takes the lock suspends the task that it interrupts. -/
def SwitchRun.suspend (s : SwitchRun) : SchedEvent → TaskId → Option Nat
  | .addTask new => Function.update s.saved new.task.id (some new.task.stackPtr)
  | .timerTick true sp =>
    match s.run.kernel.currentId with
    | some id => Function.update s.saved id (some sp)
    | none => s.saved
  | _ => s.saved

/-- One call. -/
def switchStep (s : SwitchRun) (e : SchedEvent) : Option SwitchRun :=
  (schedStep s.run e).map fun r => ⟨r, s.suspend e⟩

/-- The CPU is set up for the task. -/
structure Hardware.SetFor (hw : Hardware) (task : Task) : Prop where
  cr3 : hw.cr3 = task.process.pml4Frame
  privilegeStack : hw.privilegeStack = task.kernelStackTop
  kernelStackPtr : hw.kernelStackPtr = task.kernelStackTop

/-- One for a tick that takes the lock. -/
def SchedEvent.lockedTick : SchedEvent → Nat
  | .timerTick true _ => 1
  | _ => 0

/-- The number of ticks that take the lock. -/
def lockedTicks (es : List SchedEvent) : Nat := (es.map SchedEvent.lockedTick).sum

/-- After `start_scheduling` a task is current, and the CPU is set up for it. -/
def Dispatched (s : SchedRun) : Prop :=
  s.started = true → ∃ t, s.kernel.sched.currentTask = some t ∧ s.kernel.hw.SetFor t

/-- What holds between any two calls. -/
structure SwitchInv (s : SwitchRun) : Prop where
  sched : SchedInv s.run
  dispatched : Dispatched s.run
  saved : ∀ t ∈ s.run.kernel.sched.tasks, s.saved t.id = some t.stackPtr

namespace SwitchLemmas

theorem setFor_switchTo (task : Task) (hw : Hardware) : (task.switchTo hw).SetFor task := by
  unfold Task.switchTo setInterruptStack
  dsimp only
  by_cases hcr3 : hw.cr3 = task.process.pml4Frame
  · rw [if_neg (not_not_intro hcr3)]
    exact ⟨hcr3, rfl, rfl⟩
  · rw [if_pos hcr3]
    exact ⟨rfl, rfl, rfl⟩

/-- The task that a switch puts on the CPU is the one the CPU is set up for. -/
theorem dispatched_runNext (s : SchedRun) (next : Task) (rest : List Task) (k : Kernel) :
    Dispatched { s with kernel := runNext next rest k } :=
  fun _ => ⟨_, rfl, (setFor_switchTo next k.hw).cr3, (setFor_switchTo next k.hw).privilegeStack,
    (setFor_switchTo next k.hw).kernelStackPtr⟩

/-- Nothing that a set-up CPU looks at changes. -/
theorem Dispatched.keep {s s' : SchedRun} (h : Dispatched s) (hstarted : s'.started = s.started)
    (hhw : s'.kernel.hw = s.kernel.hw)
    (hcur : ∀ t, s.kernel.sched.currentTask = some t → ∃ t', s'.kernel.sched.currentTask = some t' ∧
      t'.process = t.process ∧ t'.kernelStackTop = t.kernelStackTop) : Dispatched s' := by
  intro hst
  obtain ⟨t, ht, hcr3, hpriv, hptr⟩ := h (hstarted ▸ hst)
  obtain ⟨t', ht', hprocess, htop⟩ := hcur t ht
  refine ⟨t', ht', ?_, ?_, ?_⟩
  · rw [hhw, hcr3, hprocess]
  · rw [hhw, hpriv, htop]
  · rw [hhw, hptr, htop]

/-- A queued task is not the current one. -/
theorem queued_ne_current {s : SchedRun} (hs : SchedInv s) {t u : Task}
    (ht : t ∈ s.kernel.sched.tasks) (hu : s.kernel.sched.currentTask = some u) : t.id ≠ u.id := by
  have hnodup := hs.live_nodup
  rw [SchedulerLemmas.liveIds_of_current hu] at hnodup
  exact (List.nodup_append.mp hnodup).2.2 _ (List.mem_map_of_mem ht) _ (List.mem_singleton.mpr rfl)

/-- The tick has suspended the task that it interrupted. -/
theorem suspend_of_current {s : SwitchRun} {u : Task} (hu : s.run.kernel.sched.currentTask = some u)
    (sp : Nat) :
    s.suspend (.timerTick true sp) = Function.update s.saved u.id (some sp) := by
  have hid : s.run.kernel.currentId = some u.id := by
    unfold Kernel.currentId
    rw [hu]
    rfl
  unfold SwitchRun.suspend
  rw [hid]

theorem suspend_of_idle {s : SwitchRun} (h : s.run.kernel.sched.currentTask = none) (sp : Nat) :
    s.suspend (.timerTick true sp) = s.saved := by
  have hid : s.run.kernel.currentId = none := by
    unfold Kernel.currentId
    rw [h]
    rfl
  unfold SwitchRun.suspend
  rw [hid]

/-- A queued task stays where it was suspended. -/
theorem suspend_queued {s : SwitchRun} (hs : SwitchInv s) {t : Task}
    (ht : t ∈ s.run.kernel.sched.tasks) (lockFree : Bool) (sp : Nat) :
    s.suspend (.timerTick lockFree sp) t.id = some t.stackPtr := by
  cases lockFree with
  | false => exact hs.saved t ht
  | true =>
    rcases hc : s.run.kernel.sched.currentTask with _ | u
    · rw [suspend_of_idle hc]
      exact hs.saved t ht
    · rw [suspend_of_current hc, Function.update_of_ne (queued_ne_current hs.sched ht hc)]
      exact hs.saved t ht

theorem step_dispatched {s s' : SchedRun} {e : SchedEvent} (hs : Dispatched s)
    (h : schedStep s e = some s') : Dispatched s' := by
  cases e with
  | addTask new =>
    simp only [schedStep] at h
    split at h
    · cases h
    · cases h
      exact Dispatched.keep hs rfl rfl fun t ht => ⟨t, ht, rfl, rfl⟩
  | startScheduling =>
    simp only [schedStep] at h
    split at h
    · cases h
    · obtain ⟨⟨k, sp⟩, hstart, rfl⟩ := Option.map_eq_some_iff.mp h
      obtain ⟨next, rest, -, -, rfl⟩ := startScheduling_cases hstart
      exact dispatched_runNext { s with started := true } next rest s.kernel
  | timerTick lockFree sp =>
    simp only [schedStep] at h
    split at h
    · next k sp' htick =>
      cases h
      rcases timerTick_cases htick with ⟨rfl, -⟩ | ⟨prev, next, rest, rfl, -, -, -, rfl⟩ |
        ⟨prev, rfl, hc, -, -, -, rfl⟩
      · exact Dispatched.keep hs rfl rfl fun t ht => ⟨t, ht, rfl, rfl⟩
      · exact dispatched_runNext _ _ _ _
      · refine Dispatched.keep hs rfl rfl fun t ht => ⟨_, rfl, ?_⟩
        rw [hc] at ht
        cases ht
        exact ⟨rfl, rfl⟩
    · cases h
  | exitMark =>
    cases h
    refine Dispatched.keep hs rfl rfl fun t ht => ⟨{ t with state := .zombie }, ?_, rfl, rfl⟩
    show Option.map _ s.kernel.sched.currentTask = _
    rw [ht]
    rfl

theorem init_dispatched (hw : Hardware) : Dispatched (SchedRun.init hw) :=
  fun h => absurd h Bool.false_ne_true

theorem addTask_saved {s : SwitchRun} (hs : SwitchInv s) {new : NewTask}
    (hnew : new.task.id ∉ s.run.added) : ∀ t ∈ (addTask new.task s.run.kernel).sched.tasks,
      s.suspend (.addTask new) t.id = some t.stackPtr := by
  intro t ht
  rcases List.mem_append.mp ht with ht | ht
  · have hne : t.id ≠ new.task.id := by
      intro heq
      have hlive : t.id ∈ s.run.kernel.liveIds := List.mem_map_of_mem (List.mem_append_left _ ht)
      exact hnew (heq ▸ hs.sched.live_added _ hlive)
    exact (Function.update_of_ne hne _ _).trans (hs.saved t ht)
  · rw [List.mem_singleton.mp ht]
    exact Function.update_self ..

theorem tick_saved {s : SwitchRun} (hs : SwitchInv s) {lockFree : Bool} {sp sp' : Nat} {k : Kernel}
    (h : timerTick lockFree sp s.run.kernel = .ret k sp') :
    ∀ t ∈ k.sched.tasks, s.suspend (.timerTick lockFree sp) t.id = some t.stackPtr := by
  intro t hmem
  rcases timerTick_cases h with ⟨rfl, -⟩ | ⟨prev, next, rest, rfl, hc, ht, -, rfl⟩ |
    ⟨prev, rfl, -, ht, -, -, rfl⟩
  · exact suspend_queued hs hmem lockFree sp
  · have hrest : t ∈ rest → s.suspend (.timerTick true sp) t.id = some t.stackPtr := fun h =>
      suspend_queued hs (ht ▸ List.mem_cons_of_mem _ h) true sp
    change t ∈ (if prev.state = .running then
      rest ++ [{ prev with stackPtr := sp, state := .ready }] else rest) at hmem
    by_cases hrun : prev.state = .running
    · rw [if_pos hrun] at hmem
      rcases List.mem_append.mp hmem with hmem | hmem
      · exact hrest hmem
      · -- the task that was interrupted, with the stack pointer of the tick
        rw [List.mem_singleton.mp hmem, suspend_of_current hc]
        exact Function.update_self ..
    · rw [if_neg hrun] at hmem
      exact hrest hmem
  · change t ∈ s.run.kernel.sched.tasks at hmem
    rw [ht] at hmem
    cases hmem

theorem switchStep_inv {s s' : SwitchRun} {e : SchedEvent} (hs : SwitchInv s)
    (h : switchStep s e = some s') : SwitchInv s' := by
  obtain ⟨r, hr, rfl⟩ := Option.map_eq_some_iff.mp h
  refine ⟨SchedulerLemmas.step_inv hs.sched hr, step_dispatched hs.dispatched hr, ?_⟩
  cases e with
  | addTask new =>
    simp only [schedStep] at hr
    split at hr
    · cases hr
    · next hnew =>
      cases hr
      exact addTask_saved hs hnew
  | startScheduling =>
    simp only [schedStep] at hr
    split at hr
    · cases hr
    · obtain ⟨⟨k, sp⟩, hstart, rfl⟩ := Option.map_eq_some_iff.mp hr
      obtain ⟨next, rest, htasks, -, rfl⟩ := startScheduling_cases hstart
      exact fun t ht => hs.saved t (htasks ▸ List.mem_cons_of_mem _ ht)
  | timerTick lockFree sp =>
    simp only [schedStep] at hr
    split at hr
    · next k sp' htick =>
      cases hr
      exact tick_saved hs htick
    · cases hr
  | exitMark =>
    cases hr
    exact hs.saved

theorem init_switchInv (hw : Hardware) : SwitchInv (SwitchRun.init hw) where
  sched := SchedulerLemmas.init_inv hw
  dispatched := init_dispatched hw
  saved t ht := by cases ht

theorem reachable_switchInv {hw : Hardware} {es : List SchedEvent} {s : SwitchRun}
    (h : run switchStep (SwitchRun.init hw) es = some s) : SwitchInv s :=
  run_invariant (fun _ _ _ hs h => switchStep_inv hs h) (init_switchInv hw) h

end SwitchLemmas

open SwitchLemmas

/-- At every point after `start_scheduling` the registers that a switch sets are those of the current task.
A tick that takes the lock and returns, at any point, returns the stack pointer that the task it leaves in
`current_task` had when it was last suspended. -/
theorem hardware_context {hw : Hardware} {es : List SchedEvent} {s : SwitchRun}
    (h : run switchStep (SwitchRun.init hw) es = some s) :
    (s.run.started = true → ∃ t, s.run.kernel.sched.currentTask = some t ∧
      s.run.kernel.hw.cr3 = t.process.pml4Frame ∧
      s.run.kernel.hw.privilegeStack = t.kernelStackTop ∧
      s.run.kernel.hw.kernelStackPtr = t.kernelStackTop) ∧
    ∀ sp k sp', timerTick true sp s.run.kernel = .ret k sp' → ∀ t, k.sched.currentTask = some t →
      s.suspend (.timerTick true sp) t.id = some sp' := by
  have hs := reachable_switchInv h
  constructor
  · intro hst
    obtain ⟨t, ht, hset⟩ := hs.dispatched hst
    exact ⟨t, ht, hset.cr3, hset.privilegeStack, hset.kernelStackPtr⟩
  · intro sp k sp' htick t ht
    rcases timerTick_cases htick with ⟨rfl, -, hno⟩ | ⟨prev, next, rest, -, hc, htasks, rfl, rfl⟩ |
      ⟨prev, -, hc, -, -, rfl, rfl⟩
    · rcases hno with hno | hno
      · cases hno
      · rw [show s.run.kernel.sched.currentTask = some t from ht] at hno
        cases hno
    · have hnext : next ∈ s.run.kernel.sched.tasks := htasks ▸ List.mem_cons_self
      cases ht
      exact suspend_queued hs hnext true sp
    · cases ht
      rw [suspend_of_current hc]
      exact Function.update_self ..

/-- The second task has exited, and the tick resumes the first one where it was suspended. -/
theorem hardware_context_sample :
    ∃ s k, run switchStep (SwitchRun.init ⟨0, 0, 0⟩) (sampleRun.take 7) = some s ∧
      timerTick true 8192 s.run.kernel = .ret k 4096 ∧
      (∃ t, s.run.kernel.sched.currentTask = some t ∧
        s.run.kernel.hw.cr3 = t.process.pml4Frame ∧
        s.run.kernel.hw.privilegeStack = t.kernelStackTop ∧
        s.run.kernel.hw.kernelStackPtr = t.kernelStackTop) ∧
      s.suspend (.timerTick true 8192) 1 = some 4096 := by
  obtain ⟨s, hs⟩ : ∃ s, run switchStep (SwitchRun.init ⟨0, 0, 0⟩) (sampleRun.take 7) = some s :=
    ⟨_, rfl⟩
  have hstarted : s.run.started = true := by
    cases hs
    rfl
  obtain ⟨k, htick, t, ht, hid⟩ : ∃ k, timerTick true 8192 s.run.kernel = .ret k 4096 ∧
      ∃ t, k.sched.currentTask = some t ∧ t.id = 1 := by
    cases hs
    exact ⟨_, rfl, _, rfl, rfl⟩
  obtain ⟨hset, hresumed⟩ := hardware_context hs
  exact ⟨s, k, hs, htick, hset hstarted, hid ▸ hresumed 8192 k 4096 htick t ht⟩

/-! ## The order of the tasks -/

namespace SwitchLemmas

/-- After `start_scheduling`, the task is `n` places behind the front of the queue. -/
structure QueuedAt (t : Task) (n : Nat) (s : SchedRun) : Prop where
  started : s.started = true
  sched : SchedInv s
  dispatched : Dispatched s
  queued : s.kernel.sched.tasks[n]? = some t

/-- A tick that takes the lock takes the first task of the queue. -/
theorem tick_takes {k : Kernel} {prev next : Task} {rest : List Task}
    (hc : k.sched.currentTask = some prev) (ht : k.sched.tasks = next :: rest) (sp : Nat) :
    ∃ k', timerTick true sp k = .ret k' next.stackPtr ∧
      k'.sched.currentTask = some { next with state := .running } ∧ rest <+: k'.sched.tasks := by
  unfold timerTick
  rw [if_pos rfl]
  dsimp only
  rw [hc, ht]
  refine ⟨_, rfl, rfl, ?_⟩
  show rest <+: if prev.state = .running then _ else rest
  by_cases hrun : prev.state = .running
  · rw [if_pos hrun]
    exact List.prefix_append rest _
  · rw [if_neg hrun]

theorem getElem?_of_prefix {α : Type} {l l' : List α} (h : l <+: l') {n : Nat} {a : α}
    (ha : l[n]? = some a) : l'[n]? = some a := by
  obtain ⟨r, rfl⟩ := h
  rw [List.getElem?_append_left (List.getElem?_eq_some_iff.mp ha).1]
  exact ha

theorem step_queuedAt {t : Task} {n : Nat} {s s' : SchedRun} {e : SchedEvent}
    (hs : QueuedAt t (n + e.lockedTick) s) (h : schedStep s e = some s') : QueuedAt t n s' := by
  have hsched := SchedulerLemmas.step_inv hs.sched h
  have hdispatched := step_dispatched hs.dispatched h
  have hqueued := hs.queued
  cases e with
  | addTask new =>
    simp only [schedStep] at h
    split at h
    · cases h
    · cases h
      exact ⟨hs.started, hsched, hdispatched,
        getElem?_of_prefix (List.prefix_append s.kernel.sched.tasks _) hqueued⟩
  | startScheduling =>
    simp only [schedStep] at h
    rw [if_pos hs.started] at h
    cases h
  | timerTick lockFree sp =>
    simp only [schedStep] at h
    split at h
    · next k sp' htick =>
      cases h
      refine ⟨hs.started, hsched, hdispatched, ?_⟩
      cases lockFree with
      | false =>
        cases htick
        exact hqueued
      | true =>
        obtain ⟨prev, hc, -⟩ := hs.dispatched hs.started
        rcases htasks : s.kernel.sched.tasks with _ | ⟨next, rest⟩ <;> rw [htasks] at hqueued
        · cases hqueued
        · obtain ⟨k', htick', -, hrest⟩ := tick_takes hc htasks sp
          rw [htick] at htick'
          cases htick'
          exact getElem?_of_prefix hrest hqueued
    · cases h
  | exitMark =>
    cases h
    exact ⟨hs.started, hsched, hdispatched, hqueued⟩

end SwitchLemmas

/-- After `start_scheduling`, a task at position `k` of the queue comes to the CPU at exactly the tick number
`k + 1` of those that take the lock, whatever other calls there are between the ticks: after any calls with
at most `k` such ticks it is not current, and the next such tick returns, with the task as the current one
if and only if there were `k` before it. -/
theorem round_robin {hw : Hardware} {es : List SchedEvent} {s : SchedRun}
    (h : run schedStep (SchedRun.init hw) es = some s) (hstarted : s.started = true) {k : Nat} {t : Task}
    (hk : s.kernel.sched.tasks[k]? = some t) {es' : List SchedEvent} {s' : SchedRun}
    (h' : run schedStep s es' = some s') (hticks : lockedTicks es' ≤ k) :
    s'.kernel.currentId ≠ some t.id ∧ ∀ sp, ∃ kernel sp',
      timerTick true sp s'.kernel = .ret kernel sp' ∧
      (kernel.currentId = some t.id ↔ lockedTicks es' = k) := by
  have hdispatched : Dispatched s :=
    run_invariant (fun _ _ _ hs h => step_dispatched hs h) (init_dispatched hw) h
  obtain ⟨n, rfl⟩ := Nat.exists_eq_add_of_le' hticks
  have hqueued : QueuedAt t n s' := run_countdown (P := QueuedAt t)
    (fun _ _ _ _ hs h => step_queuedAt hs h)
    ⟨hstarted, SchedulerLemmas.reachable_inv h, hdispatched, hk⟩ h'
  obtain ⟨prev, hc, -⟩ := hqueued.dispatched hqueued.started
  have hmem : t ∈ s'.kernel.sched.tasks := List.mem_of_getElem? hqueued.queued
  constructor
  · unfold Kernel.currentId
    rw [hc]
    exact fun heq => queued_ne_current hqueued.sched hmem hc (Option.some.inj heq).symm
  · intro sp
    have hat := hqueued.queued
    rcases htasks : s'.kernel.sched.tasks with _ | ⟨next, rest⟩ <;> rw [htasks] at hat
    · cases hat
    · obtain ⟨kernel, htick, hcur, -⟩ := tick_takes hc htasks sp
      have hid : kernel.currentId = some next.id := by
        unfold Kernel.currentId
        rw [hcur]
        rfl
      refine ⟨kernel, _, htick, ?_⟩
      rw [hid]
      cases n with
      | zero =>
        cases hat
        exact ⟨fun _ => (Nat.zero_add _).symm, fun _ => rfl⟩
      | succ n =>
        -- the first task of the queue is another one
        have hrest : t ∈ rest := List.mem_of_getElem? hat
        have hnodup := hqueued.sched.live_nodup
        rw [SchedulerLemmas.liveIds_of_current hc, htasks, List.map_cons] at hnodup
        have hne : next.id ≠ t.id := by
          intro heq
          refine (List.nodup_cons.mp (List.nodup_append.mp hnodup).1).1 ?_
          rw [heq]
          exact List.mem_map_of_mem hrest
        constructor
        · exact fun heq => absurd (Option.some.inj heq) hne
        · omega

/-- The third task is second in the queue; a tick with the lock taken does not count. -/
theorem round_robin_sample :
    ∃ s s', run schedStep (SchedRun.init ⟨0, 0, 0⟩) (sampleRun.take 5) = some s ∧
      s.kernel.sched.tasks[1]? = some (sampleTask 3).task ∧
      run schedStep s [.exitMark, .timerTick false 8192, .timerTick true 8192] = some s' ∧
      s'.kernel.currentId ≠ some 3 ∧
      ∀ sp, ∃ kernel sp', timerTick true sp s'.kernel = .ret kernel sp' ∧
        (kernel.currentId = some 3 ↔
          lockedTicks [.exitMark, .timerTick false 8192, .timerTick true 8192] = 1) := by
  obtain ⟨s, hs⟩ : ∃ s, run schedStep (SchedRun.init ⟨0, 0, 0⟩) (sampleRun.take 5) = some s :=
    ⟨_, rfl⟩
  have hstarted : s.started = true := by
    cases hs
    rfl
  have hqueued : s.kernel.sched.tasks[1]? = some (sampleTask 3).task := by
    cases hs
    rfl
  obtain ⟨s', hs'⟩ : ∃ s',
      run schedStep s [.exitMark, .timerTick false 8192, .timerTick true 8192] = some s' := by
    cases hs
    exact ⟨_, rfl⟩
  exact ⟨s, s', hs, hqueued, hs', round_robin hs hstarted hqueued hs' (Nat.le_refl 1)⟩

end Turnix
