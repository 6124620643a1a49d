import Mathlib.Data.List.Nodup
import Turnix.Scheduler

/-!
# No task is lost or doubled

Runs of the scheduler from the empty one: tasks are added, `start_scheduling` is called once,
ticks come with the lock free or taken, and the current task may be marked as exited between any
two of them. `no_task_lost_or_doubled` says where every task is at every point of such a run.

The state of a run carries three lists of task ids beside the kernel: those added, those marked by
`exit_current_task`, and those a tick discarded.
-/

namespace Turnix

open Lib

/-- A task as `Task::new` and `Task::new_user` hand it out. -/
structure NewTask where
  task : Task
  isReady : task.state = .ready

/-- The calls a run is made of. -/
inductive SchedEvent
  | addTask (new : NewTask)
  | startScheduling
  | timerTick (lockFree : Bool) (currentStackPtr : Nat)
  | exitMark

/-- The kernel, with the history of the run. -/
structure SchedRun where
  kernel : Kernel
  started : Bool
  added : List TaskId
  marked : List TaskId
  discarded : List TaskId
deriving DecidableEq

/-- The empty scheduler on any hardware state. -/
def SchedRun.init (hw : Hardware) : SchedRun := ⟨⟨Scheduler.new, 0, hw⟩, false, [], [], []⟩

/-- The tasks of the ready queue and the current one. -/
def Kernel.liveTasks (k : Kernel) : List Task := k.sched.tasks ++ k.sched.currentTask.toList

def Kernel.liveIds (k : Kernel) : List TaskId := k.liveTasks.map Task.id

/-- The task that a tick drops: a zombie that has a successor. -/
def discardedBy (lockFree : Bool) (k : Kernel) : List TaskId :=
  match lockFree, k.sched.currentTask, k.sched.tasks with
  | true, some prev, _ :: _ => if prev.state = .zombie then [prev.id] else []
  | _, _, _ => []

/-- One call. There is no step for an id that was added before, for a second `start_scheduling`,
and for a call that does not return (the panic of `start_scheduling`, the final halt). -/
def schedStep (s : SchedRun) : SchedEvent → Option SchedRun
  | .addTask new =>
    if new.task.id ∈ s.added then none
    else some { s with kernel := addTask new.task s.kernel, added := new.task.id :: s.added }
  | .startScheduling =>
    if s.started then none
    else (startScheduling s.kernel).map fun r => { s with kernel := r.1, started := true }
  | .timerTick lockFree sp =>
    match timerTick lockFree sp s.kernel with
    | .ret k _ => some { s with
        kernel := k
        discarded := discardedBy lockFree s.kernel ++ s.discarded }
    | .halt => none
  | .exitMark => some { s with
      kernel := exitMark s.kernel
      marked := (s.kernel.sched.currentTask.map Task.id).toList ++ s.marked }

/-- What holds between any two calls. -/
structure SchedInv (s : SchedRun) : Prop where
  live_nodup : s.kernel.liveIds.Nodup
  live_added : ∀ id ∈ s.kernel.liveIds, id ∈ s.added
  live_or_discarded : ∀ id ∈ s.added, id ∈ s.kernel.liveIds ∨ id ∈ s.discarded
  discarded_not_live : ∀ id ∈ s.discarded, id ∉ s.kernel.liveIds
  discarded_marked : ∀ id ∈ s.discarded, id ∈ s.marked
  marked_added : ∀ id ∈ s.marked, id ∈ s.added
  queue_ready : ∀ t ∈ s.kernel.sched.tasks, t.state = .ready
  current_state : ∀ t, s.kernel.sched.currentTask = some t → t.state = .running ∨ t.state = .zombie
  current_id : s.kernel.sched.currentTaskId = s.kernel.sched.currentTask.map Task.id
  marked_not_queued : ∀ t ∈ s.kernel.sched.tasks, t.id ∉ s.marked
  current_zombie : ∀ t, s.kernel.sched.currentTask = some t → (t.id ∈ s.marked ↔ t.state = .zombie)
  idle_before_start : s.started = false → s.kernel.sched.currentTask = none

namespace SchedulerLemmas

theorem liveIds_addTask (t : Task) (k : Kernel) :
    ((addTask t k).liveIds).Perm (t.id :: k.liveIds) := by
  simp only [Kernel.liveIds, Kernel.liveTasks, addTask, List.map_append, List.map_cons,
    List.append_assoc, List.singleton_append]
  exact List.perm_middle

theorem liveIds_exitMark (k : Kernel) : (exitMark k).liveIds = k.liveIds := by
  cases hc : k.sched.currentTask <;> simp [Kernel.liveIds, Kernel.liveTasks, exitMark, hc]

theorem exitMark_of_idle {k : Kernel} (h : k.sched.currentTask = none) : exitMark k = k := by
  obtain ⟨⟨tasks, cur, n, id⟩, ticks, hw⟩ := k
  simp only at h
  subst h
  rfl

theorem liveIds_runNext (next : Task) (rest : List Task) (k : Kernel) :
    (runNext next rest k).liveIds = rest.map Task.id ++ [next.id] := by
  simp [Kernel.liveIds, Kernel.liveTasks, runNext]

theorem liveIds_of_current {k : Kernel} {t : Task} (h : k.sched.currentTask = some t) :
    k.liveIds = k.sched.tasks.map Task.id ++ [t.id] := by
  simp [Kernel.liveIds, Kernel.liveTasks, h]

theorem liveIds_of_idle {k : Kernel} (h : k.sched.currentTask = none) :
    k.liveIds = k.sched.tasks.map Task.id := by
  simp [Kernel.liveIds, Kernel.liveTasks, h]

theorem addTask_inv {s : SchedRun} (hs : SchedInv s) {new : NewTask} (hnew : new.task.id ∉ s.added) :
    SchedInv { s with kernel := addTask new.task s.kernel, added := new.task.id :: s.added } := by
  have hperm := liveIds_addTask new.task s.kernel
  have hmem : ∀ id, id ∈ (addTask new.task s.kernel).liveIds ↔
      id = new.task.id ∨ id ∈ s.kernel.liveIds := by
    intro id
    rw [hperm.mem_iff, List.mem_cons]
  have hmarked : new.task.id ∉ s.marked := fun h => hnew (hs.marked_added _ h)
  constructor
  case live_nodup =>
    exact hperm.nodup_iff.mpr (List.nodup_cons.mpr ⟨fun h => hnew (hs.live_added _ h), hs.live_nodup⟩)
  case live_added =>
    intro id hid
    rcases (hmem id).mp hid with rfl | h
    · exact List.mem_cons_self
    · exact List.mem_cons_of_mem _ (hs.live_added id h)
  case live_or_discarded =>
    intro id hid
    rcases List.mem_cons.mp hid with rfl | h
    · exact .inl ((hmem _).mpr (.inl rfl))
    · exact (hs.live_or_discarded id h).imp_left fun h => (hmem id).mpr (.inr h)
  case discarded_not_live =>
    intro id hid hlive
    rcases (hmem id).mp hlive with rfl | h
    · exact hmarked (hs.discarded_marked _ hid)
    · exact hs.discarded_not_live id hid h
  case discarded_marked => exact hs.discarded_marked
  case marked_added => exact fun id hid => List.mem_cons_of_mem _ (hs.marked_added id hid)
  case queue_ready =>
    intro t ht
    rcases List.mem_append.mp ht with h | h
    · exact hs.queue_ready t h
    · rw [List.mem_singleton.mp h]
      exact new.isReady
  case current_state => exact hs.current_state
  case current_id => exact hs.current_id
  case marked_not_queued =>
    intro t ht
    rcases List.mem_append.mp ht with h | h
    · exact hs.marked_not_queued t h
    · rw [List.mem_singleton.mp h]
      exact hmarked
  case current_zombie => exact hs.current_zombie
  case idle_before_start => exact hs.idle_before_start

theorem exitMark_inv {s : SchedRun} (hs : SchedInv s) :
    SchedInv { s with
      kernel := exitMark s.kernel
      marked := (s.kernel.sched.currentTask.map Task.id).toList ++ s.marked } := by
  cases hc : s.kernel.sched.currentTask with
  | none =>
    rw [exitMark_of_idle hc]
    exact hs
  | some t =>
    have hlive := liveIds_exitMark s.kernel
    have hcur : (exitMark s.kernel).sched.currentTask = some { t with state := .zombie } := by
      simp [exitMark, hc]
    have hids := liveIds_of_current hc
    have htid : t.id ∈ s.kernel.liveIds := by simp [hids]
    have htq : t.id ∉ s.kernel.sched.tasks.map Task.id := by
      have hnd := hs.live_nodup
      rw [hids] at hnd
      intro hmem
      exact (List.nodup_append.mp hnd).2.2 _ hmem _ (List.mem_singleton.mpr rfl) rfl
    constructor
    case live_nodup => exact hlive ▸ hs.live_nodup
    case live_added => exact fun id hid => hs.live_added id (hlive ▸ hid)
    case live_or_discarded => exact fun id hid => hlive ▸ hs.live_or_discarded id hid
    case discarded_not_live => exact fun id hid => hlive ▸ hs.discarded_not_live id hid
    case discarded_marked =>
      exact fun id hid => List.mem_append_right _ (hs.discarded_marked id hid)
    case marked_added =>
      intro id hid
      rcases List.mem_append.mp hid with h | h
      · simp only [Option.map_some, Option.toList_some, List.mem_singleton] at h
        exact h ▸ hs.live_added _ htid
      · exact hs.marked_added id h
    case queue_ready => exact hs.queue_ready
    case current_state =>
      intro u hu
      rw [hcur] at hu
      cases hu
      exact .inr rfl
    case current_id =>
      rw [hcur]
      have := hs.current_id
      rw [hc] at this
      exact this
    case marked_not_queued =>
      intro u hu hmem
      rcases List.mem_append.mp hmem with h | h
      · simp only [Option.map_some, Option.toList_some, List.mem_singleton] at h
        exact htq (h ▸ List.mem_map_of_mem hu)
      · exact hs.marked_not_queued u hu h
    case current_zombie =>
      intro u hu
      rw [hcur] at hu
      cases hu
      simp
    case idle_before_start =>
      intro hst
      rw [hs.idle_before_start hst] at hc
      cases hc

/-- A task of the queue is put on the CPU; the tasks that are not live any more are marked ones. -/
theorem runNext_inv {s : SchedRun} (hs : SchedInv s) {next : Task} {queue : List Task} {k : Kernel}
    {dropped : List TaskId} (hnext : next ∈ s.kernel.sched.tasks)
    (hqueue : ∀ t ∈ queue, t.state = .ready ∧ t.id ∉ s.marked)
    (hlive : s.kernel.liveIds.Perm (dropped ++ (runNext next queue k).liveIds))
    (hdropped : ∀ id ∈ dropped, id ∈ s.marked) :
    SchedInv { s with
      kernel := runNext next queue k, started := true, discarded := dropped ++ s.discarded } := by
  obtain ⟨-, hnodup, hapart⟩ := List.nodup_append.mp (hlive.nodup_iff.mp hs.live_nodup)
  have hsub : ∀ id ∈ (runNext next queue k).liveIds, id ∈ s.kernel.liveIds := fun id h =>
    hlive.mem_iff.mpr (List.mem_append_right _ h)
  constructor
  case live_nodup => exact hnodup
  case live_added => exact fun id hid => hs.live_added id (hsub id hid)
  case live_or_discarded =>
    intro id hid
    rcases hs.live_or_discarded id hid with h | h
    · rcases List.mem_append.mp (hlive.mem_iff.mp h) with h | h
      · exact .inr (List.mem_append_left _ h)
      · exact .inl h
    · exact .inr (List.mem_append_right _ h)
  case discarded_not_live =>
    intro id hid h
    rcases List.mem_append.mp hid with hid | hid
    · exact hapart id hid id h rfl
    · exact hs.discarded_not_live id hid (hsub id h)
  case discarded_marked =>
    intro id hid
    rcases List.mem_append.mp hid with hid | hid
    · exact hdropped id hid
    · exact hs.discarded_marked id hid
  case marked_added => exact hs.marked_added
  case queue_ready => exact fun t h => (hqueue t h).1
  case current_state =>
    intro t h
    cases h
    exact .inl rfl
  case current_id => rfl
  case marked_not_queued => exact fun t h => (hqueue t h).2
  case current_zombie =>
    intro t h
    cases h
    simp [hs.marked_not_queued next hnext]
  case idle_before_start =>
    intro h
    cases h

theorem queue_tail {s : SchedRun} (hs : SchedInv s) {next : Task} {rest : List Task}
    (ht : s.kernel.sched.tasks = next :: rest) : ∀ t ∈ rest, t.state = .ready ∧ t.id ∉ s.marked := by
  intro t h
  have hmem : t ∈ s.kernel.sched.tasks := ht ▸ List.mem_cons_of_mem _ h
  exact ⟨hs.queue_ready t hmem, hs.marked_not_queued t hmem⟩

theorem startScheduling_inv {s : SchedRun} (hs : SchedInv s) (hst : s.started = false)
    {k : Kernel} {sp : Nat} (h : startScheduling s.kernel = some (k, sp)) :
    SchedInv { s with kernel := k, started := true } := by
  have hidle := hs.idle_before_start hst
  have hids := liveIds_of_idle hidle
  unfold startScheduling at h
  split at h
  · cases h
  · next next rest ht =>
    split at h
    · cases h
      have hnext : next ∈ s.kernel.sched.tasks := ht ▸ List.mem_cons_self
      have hlive : s.kernel.liveIds.Perm ([] ++ (runNext next rest s.kernel).liveIds) := by
        rw [List.nil_append, liveIds_runNext, hids, ht]
        exact (List.perm_append_singleton _ _).symm
      exact runNext_inv hs hnext (queue_tail hs ht) hlive fun id hid => absurd hid List.not_mem_nil
    · cases h

/-- A switch from a task that is still running keeps every live task. -/
theorem switch_live {k : Kernel} (k' : Kernel) {prev next : Task} {rest : List Task} (sp : Nat)
    (hc : k.sched.currentTask = some prev) (ht : k.sched.tasks = next :: rest) :
    (runNext next (rest ++ [{ prev with stackPtr := sp, state := .ready }]) k').liveIds.Perm
      k.liveIds := by
  rw [liveIds_runNext, liveIds_of_current hc, ht]
  simp only [List.map_append, List.map_cons, List.map_nil, List.append_assoc, List.cons_append,
    List.nil_append]
  exact ((List.Perm.swap _ _ _).append_left _).trans List.perm_middle

theorem tick_switch_inv {s : SchedRun} (hs : SchedInv s) {prev next : Task} {rest : List Task}
    {sp ticks : Nat} (hc : s.kernel.sched.currentTask = some prev)
    (ht : s.kernel.sched.tasks = next :: rest) :
    SchedInv { s with
      kernel := runNext next
        (if prev.state = .running then
          rest ++ [{ prev with stackPtr := sp, state := .ready }] else rest)
        { s.kernel with uptimeTicks := ticks }
      discarded := discardedBy true s.kernel ++ s.discarded } := by
  have hnext : next ∈ s.kernel.sched.tasks := ht ▸ List.mem_cons_self
  have hstarted : s.started = true := by
    by_contra h
    rw [hs.idle_before_start (by simpa using h)] at hc
    cases hc
  rw [hstarted]
  rcases hs.current_state prev hc with hrun | hzom
  · -- the task goes to the back of the queue; nothing is discarded
    have hdis : discardedBy true s.kernel = [] := by simp [discardedBy, hc, ht, hrun]
    have hunmarked : prev.id ∉ s.marked := by
      rw [hs.current_zombie prev hc, hrun]
      simp
    rw [if_pos hrun, hdis]
    refine runNext_inv hs hnext (fun t h => ?_)
      (switch_live { s.kernel with uptimeTicks := ticks } sp hc ht).symm
      fun id hid => absurd hid List.not_mem_nil
    rcases List.mem_append.mp h with h | h
    · exact queue_tail hs ht t h
    · rw [List.mem_singleton.mp h]
      exact ⟨rfl, hunmarked⟩
  · -- the zombie is dropped: it is the last entry of the live list
    have hne : prev.state ≠ .running := by simp [hzom]
    have hdis : discardedBy true s.kernel = [prev.id] := by simp [discardedBy, hc, ht, hzom]
    rw [if_neg hne, hdis]
    refine runNext_inv hs hnext (queue_tail hs ht) ?_ fun id hid => ?_
    · rw [liveIds_runNext, liveIds_of_current hc, ht]
      refine (List.perm_append_singleton _ _).trans (List.Perm.cons _ ?_)
      exact (List.perm_append_singleton _ _).symm
    · rw [List.mem_singleton.mp hid]
      exact (hs.current_zombie prev hc).mpr hzom

/-- A tick that finds no other task, or the lock taken, changes nothing a run looks at. -/
theorem tick_stay_inv {s : SchedRun} (hs : SchedInv s) {k : Kernel}
    (htasks : k.sched.tasks = s.kernel.sched.tasks)
    (hcur : k.sched.currentTask.map (fun t => (t.id, t.state)) =
      s.kernel.sched.currentTask.map fun t => (t.id, t.state))
    (hid : k.sched.currentTaskId = s.kernel.sched.currentTaskId) :
    SchedInv { s with kernel := k } := by
  have hids : k.sched.currentTask.map Task.id = s.kernel.sched.currentTask.map Task.id := by
    have := congrArg (Option.map Prod.fst) hcur
    simpa [Option.map_map, Function.comp_def] using this
  have hlive : k.liveIds = s.kernel.liveIds := by
    simp only [Kernel.liveIds, Kernel.liveTasks, htasks, List.map_append]
    congr 1
    cases h : k.sched.currentTask <;> cases h' : s.kernel.sched.currentTask <;> simp_all
  have hback : ∀ t, k.sched.currentTask = some t →
      ∃ u, s.kernel.sched.currentTask = some u ∧ u.id = t.id ∧ u.state = t.state := by
    intro t h
    rw [h, Option.map_some] at hcur
    obtain ⟨u, hu, heq⟩ := Option.map_eq_some_iff.mp hcur.symm
    simp only [Prod.mk.injEq] at heq
    exact ⟨u, hu, heq.1, heq.2⟩
  constructor
  case live_nodup => exact hlive ▸ hs.live_nodup
  case live_added => exact fun id hid => hs.live_added id (hlive ▸ hid)
  case live_or_discarded => exact fun id hid => hlive ▸ hs.live_or_discarded id hid
  case discarded_not_live => exact fun id hid => hlive ▸ hs.discarded_not_live id hid
  case discarded_marked => exact hs.discarded_marked
  case marked_added => exact hs.marked_added
  case queue_ready => exact htasks ▸ hs.queue_ready
  case current_state =>
    intro t h
    obtain ⟨u, hu, -, hstate⟩ := hback t h
    exact hstate ▸ hs.current_state u hu
  case current_id => exact hid.trans (hs.current_id.trans hids.symm)
  case marked_not_queued => exact htasks ▸ hs.marked_not_queued
  case current_zombie =>
    intro t h
    obtain ⟨u, hu, hid, hstate⟩ := hback t h
    rw [← hid, ← hstate]
    exact hs.current_zombie u hu
  case idle_before_start =>
    intro h
    have := hs.idle_before_start h
    rw [this, Option.map_none] at hcur
    exact Option.map_eq_none_iff.mp hcur

theorem discardedBy_eq_nil {lockFree : Bool} {k : Kernel}
    (h : lockFree = false ∨ k.sched.currentTask = none ∨ k.sched.tasks = []) :
    discardedBy lockFree k = [] := by
  unfold discardedBy
  split
  · rcases h with h | h | h <;> simp_all
  · rfl

theorem tick_inv {s : SchedRun} (hs : SchedInv s) {lockFree : Bool} {sp sp' : Nat} {k : Kernel}
    (h : timerTick lockFree sp s.kernel = .ret k sp') :
    SchedInv { s with kernel := k, discarded := discardedBy lockFree s.kernel ++ s.discarded } := by
  rcases timerTick_cases h with ⟨rfl, -, hno⟩ | ⟨prev, next, rest, rfl, hc, ht, -, rfl⟩ |
    ⟨prev, rfl, hc, ht, -, -, rfl⟩
  · rw [discardedBy_eq_nil (hno.imp_right .inl)]
    exact tick_stay_inv hs rfl rfl rfl
  · exact tick_switch_inv hs hc ht
  · rw [discardedBy_eq_nil (.inr (.inr ht))]
    refine tick_stay_inv hs rfl ?_ ?_
    · simp [hc]
    · rw [hs.current_id, hc]
      rfl

theorem init_inv (hw : Hardware) : SchedInv (SchedRun.init hw) := by
  constructor <;> simp [SchedRun.init, Scheduler.new, Kernel.liveIds, Kernel.liveTasks]

theorem step_inv {s s' : SchedRun} {e : SchedEvent} (hs : SchedInv s)
    (h : schedStep s e = some s') : SchedInv s' := by
  cases e with
  | addTask new =>
    simp only [schedStep] at h
    split at h
    · cases h
    · next hnew =>
      cases h
      exact addTask_inv hs hnew
  | startScheduling =>
    simp only [schedStep] at h
    split at h
    · cases h
    · next hst =>
      obtain ⟨⟨k, sp⟩, hstart, rfl⟩ := Option.map_eq_some_iff.mp h
      exact startScheduling_inv hs (by simpa using hst) hstart
  | timerTick lockFree sp =>
    simp only [schedStep] at h
    split at h
    · next k sp' htick =>
      cases h
      exact tick_inv hs htick
    · cases h
  | exitMark =>
    cases h
    exact exitMark_inv hs

theorem reachable_inv {hw : Hardware} {es : List SchedEvent} {s : SchedRun}
    (h : run schedStep (SchedRun.init hw) es = some s) : SchedInv s :=
  run_invariant (fun _ _ _ hs h => step_inv hs h) (init_inv hw) h

end SchedulerLemmas

open SchedulerLemmas

/-- The scheduler loses no task and doubles none. After any run, every task that was added and not
discarded is exactly once in the queue together with the current task, and only tasks marked as
exited are ever discarded; queued tasks are ready, the current one is running or a zombie, and
`current_task_id` names it. A task marked as exited is not in the queue, and it is the current task
only as a zombie, so no later tick selects it (which would make it running). -/
theorem no_task_lost_or_doubled {hw : Hardware} {es : List SchedEvent} {s : SchedRun}
    (h : run schedStep (SchedRun.init hw) es = some s) :
    (∀ id ∈ s.added, id ∉ s.discarded → s.kernel.liveIds.count id = 1) ∧
    (∀ id ∈ s.discarded, id ∈ s.marked ∧ s.kernel.liveIds.count id = 0) ∧
    (∀ t ∈ s.kernel.sched.tasks, t.state = .ready) ∧
    (∀ t, s.kernel.sched.currentTask = some t → t.state = .running ∨ t.state = .zombie) ∧
    s.kernel.sched.currentTaskId = s.kernel.sched.currentTask.map Task.id ∧
    (∀ id ∈ s.marked, (∀ t ∈ s.kernel.sched.tasks, t.id ≠ id) ∧
      ∀ t, s.kernel.sched.currentTask = some t → t.id = id → t.state = .zombie) := by
  have hs := reachable_inv h
  refine ⟨?_, ?_, hs.queue_ready, hs.current_state, hs.current_id, ?_⟩
  · intro id hadd hdis
    exact List.count_eq_one_of_mem hs.live_nodup ((hs.live_or_discarded id hadd).resolve_right hdis)
  · intro id hid
    exact ⟨hs.discarded_marked id hid, List.count_eq_zero.mpr (hs.discarded_not_live id hid)⟩
  · intro id hid
    refine ⟨fun t ht heq => hs.marked_not_queued t ht (heq ▸ hid), fun t ht heq => ?_⟩
    exact (hs.current_zombie t ht).mp (heq ▸ hid)

/-- A kernel task with the stack `Task::new` gives to this id. -/
def sampleTask (id : TaskId) : NewTask :=
  ⟨⟨id, 0xFFFFFE0000000000 + id * 40960 + 36864 - 160, 0xFFFFFE0000000000 + id * 40960 + 36864,
    ⟨0x1000, 0, 0⟩, .ready⟩, rfl⟩

/-- Three tasks; the first is switched away, the second exits, and a tick with the lock taken comes
before the one that drops it. -/
def sampleRun : List SchedEvent :=
  [.addTask (sampleTask 1), .addTask (sampleTask 2), .startScheduling, .timerTick true 4096,
    .addTask (sampleTask 3), .exitMark, .timerTick false 8192, .timerTick true 8192]

theorem no_task_lost_or_doubled_sample :
    ∃ s, run schedStep (SchedRun.init ⟨0x1000, 0, 0⟩) sampleRun = some s ∧
      s.kernel.liveIds = [3, 1] ∧ s.discarded = [2] ∧
      ∀ id ∈ s.added, id ∉ s.discarded → s.kernel.liveIds.count id = 1 := by
  obtain ⟨s, hs⟩ : ∃ s, run schedStep (SchedRun.init ⟨0x1000, 0, 0⟩) sampleRun = some s :=
    ⟨_, rfl⟩
  have hlive : s.kernel.liveIds = [3, 1] := by
    cases hs
    rfl
  have hdis : s.discarded = [2] := by
    cases hs
    rfl
  exact ⟨s, hs, hlive, hdis, (no_task_lost_or_doubled hs).1⟩

end Turnix
