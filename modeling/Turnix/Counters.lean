import Turnix.ContextIntegrity

/-!
# What the scheduler counts

Two numbers that system calls and the shell report.

* `task_count_iff`: `add_task` counts a task, and nothing takes it off the count when it exits.
* `uptime_iff`: the interrupt of the timer and the one by which a task yields end in the same `timer_tick`,
  so the uptime counts both.
-/

namespace Turnix

open Lib

/-! ## Tasks -/

/-- The tasks that are in the ready queue or on the CPU. -/
def Kernel.present (k : Kernel) : Nat :=
  k.sched.tasks.length + if k.sched.currentTask.isSome then 1 else 0

/-- The tasks that were added and have not called `exit_current_task`. -/
def SchedRun.remaining (s : SchedRun) : List TaskId := s.added.filter fun id => id ∉ s.marked

/-- `get_task_count` is the number of tasks that are there, which is that of the tasks that have not exited. -/
def CountsTasks (s : SchedRun) : Prop :=
  getTaskCount s.kernel = s.kernel.present ∧ s.kernel.present = s.remaining.length

namespace CounterLemmas

open SchedulerLemmas

theorem length_liveIds (k : Kernel) : k.liveIds.length = k.present := by
  unfold Kernel.liveIds Kernel.liveTasks Kernel.present
  cases k.sched.currentTask <;> simp

/-- What is counted, and that it is counted once. -/
structure CountInv (s : SchedRun) : Prop where
  count : getTaskCount s.kernel = s.added.length
  nodup : s.added.Nodup

theorem taskCount_tick {lockFree : Bool} {sp sp' : Nat} {k k' : Kernel}
    (h : timerTick lockFree sp k = .ret k' sp') : getTaskCount k' = getTaskCount k := by
  rcases timerTick_cases h with ⟨rfl, -⟩ | ⟨prev, next, rest, -, -, -, -, rfl⟩ | ⟨prev, -, -, -, -, -, rfl⟩
  · rfl
  · rfl
  · rfl

theorem schedStep_count {s s' : SchedRun} {e : SchedEvent} (hs : CountInv s)
    (h : schedStep s e = some s') : CountInv s' := by
  cases e with
  | addTask new =>
    simp only [schedStep] at h
    split at h
    · cases h
    · next hnew =>
      cases h
      refine ⟨?_, List.nodup_cons.mpr ⟨hnew, hs.nodup⟩⟩
      exact congrArg (· + 1) hs.count
  | startScheduling =>
    simp only [schedStep] at h
    split at h
    · cases h
    · obtain ⟨⟨k, sp⟩, hstart, rfl⟩ := Option.map_eq_some_iff.mp h
      obtain ⟨next, rest, -, -, rfl⟩ := startScheduling_cases hstart
      exact ⟨hs.count, hs.nodup⟩
  | timerTick lockFree sp =>
    simp only [schedStep] at h
    split at h
    · next k sp' htick =>
      cases h
      exact ⟨(taskCount_tick htick).trans hs.count, hs.nodup⟩
    · cases h
  | exitMark =>
    cases h
    exact ⟨hs.count, hs.nodup⟩

/-- While the current task is not a zombie, the tasks that are there are those that have not exited. -/
theorem mem_liveIds_iff {s : SchedRun} (hs : SchedInv s)
    (hcur : ∀ t, s.kernel.sched.currentTask = some t → t.state ≠ .zombie) (id : TaskId) :
    id ∈ s.kernel.liveIds ↔ id ∈ s.remaining := by
  unfold SchedRun.remaining
  rw [List.mem_filter, decide_eq_true_iff]
  constructor
  · intro hlive
    refine ⟨hs.live_added id hlive, fun hmarked => ?_⟩
    obtain ⟨t, ht, rfl⟩ := List.mem_map.mp hlive
    rcases List.mem_append.mp ht with hq | hc
    · exact hs.marked_not_queued t hq hmarked
    · have hcurrent := Option.mem_toList.mp hc
      exact hcur t hcurrent ((hs.current_zombie t hcurrent).mp hmarked)
  · rintro ⟨hadded, hmarked⟩
    rcases hs.live_or_discarded id hadded with hlive | hdiscarded
    · exact hlive
    · exact absurd (hs.discarded_marked id hdiscarded) hmarked

theorem present_eq {s : SchedRun} (hs : SchedInv s) (hcount : CountInv s)
    (hcur : ∀ t, s.kernel.sched.currentTask = some t → t.state ≠ .zombie) :
    s.kernel.present = s.remaining.length := by
  have hperm : s.kernel.liveIds.Perm s.remaining :=
    (List.perm_ext_iff_of_nodup hs.live_nodup (hcount.nodup.filter _)).mpr (mem_liveIds_iff hs hcur)
  rw [← length_liveIds, hperm.length_eq]

/-- All added tasks remain exactly if none has exited. -/
theorem remaining_length_iff {s : SchedRun} (hs : SchedInv s) :
    s.remaining.length = s.added.length ↔ s.marked = [] := by
  unfold SchedRun.remaining
  rw [List.length_filter_eq_length_iff]
  constructor
  · intro hall
    refine List.eq_nil_iff_forall_not_mem.mpr fun id hid => ?_
    exact of_decide_eq_true (hall id (hs.marked_added id hid)) hid
  · intro hnil id _
    rw [hnil]
    exact decide_eq_true List.not_mem_nil

end CounterLemmas

open CounterLemmas

/-- In every run, and whenever the current task is not a zombie, the task count is right exactly if no task has
exited so far. -/
theorem task_count_iff {hw : Hardware} {es : List SchedEvent} {s : SchedRun}
    (h : run schedStep (SchedRun.init hw) es = some s)
    (hcur : ∀ t, s.kernel.sched.currentTask = some t → t.state ≠ .zombie) :
    CountsTasks s ↔ s.marked = [] := by
  have hs : SchedInv s := SchedulerLemmas.reachable_inv h
  have hcount : CountInv s :=
    run_invariant (fun _ _ _ => schedStep_count) ⟨rfl, List.nodup_nil⟩ h
  have hpresent := present_eq hs hcount hcur
  unfold CountsTasks
  rw [hcount.count, hpresent, ← remaining_length_iff hs]
  exact ⟨fun h => h.1.symm, fun h => ⟨h.symm, rfl⟩⟩

/-- Two tasks, of which one runs. -/
theorem task_count_sample : ∃ s,
    run schedStep (SchedRun.init ⟨0x1000, 0, 0⟩)
      [.addTask (sampleTask 1), .addTask (sampleTask 2), .startScheduling, .timerTick true 4096] = some s ∧
    CountsTasks s := by
  obtain ⟨s, hs⟩ : ∃ s, run schedStep (SchedRun.init ⟨0x1000, 0, 0⟩)
      [.addTask (sampleTask 1), .addTask (sampleTask 2), .startScheduling, .timerTick true 4096] = some s :=
    ⟨_, rfl⟩
  refine ⟨s, hs, (task_count_iff hs ?_).mpr ?_⟩ <;> cases hs
  · intro t ht
    cases ht
    decide
  · rfl

/-- One of two tasks exits and is dropped by the next tick; the other one runs, and the count is still two. -/
theorem exited_task_counted : ∃ s,
    run schedStep (SchedRun.init ⟨0x1000, 0, 0⟩)
      [.addTask (sampleTask 1), .addTask (sampleTask 2), .startScheduling, .exitMark, .timerTick true 4096] =
        some s ∧
    s.kernel.sched.currentTask.map Task.state = some .running ∧ getTaskCount s.kernel = 2 ∧
    s.kernel.present = 1 ∧ s.remaining = [2] :=
  ⟨_, rfl, rfl, rfl, rfl, rfl⟩

/-! ## Ticks -/

/-- A timer interrupt is handled. -/
def MachineEvent.isTimer : MachineEvent → Bool
  | .timer .. => true
  | _ => false

/-- A task yields: by `yield_task`, for `Yielder`, or in `exit_current_task`. -/
def MachineEvent.isYield : MachineEvent → Bool
  | .yield .. => true
  | _ => false

namespace CounterLemmas

open MachineLemmas

/-- What an event adds to the uptime. -/
def ticks (e : MachineEvent) : Nat := if e.isTimer || e.isYield then 1 else 0

theorem uptime_tick {lockFree : Bool} {sp sp' : Nat} {k k' : Kernel}
    (h : timerTick lockFree sp k = .ret k' sp') : k'.uptimeTicks = (k.uptimeTicks + 1) % 2 ^ 64 := by
  rcases timerTick_cases h with ⟨rfl, -⟩ | ⟨prev, next, rest, -, -, -, -, rfl⟩ | ⟨prev, -, -, -, -, -, rfl⟩
  · rfl
  · rfl
  · rfl

theorem uptime_machineTick {p : Platform} {m m' : Machine} {stub : List Instr} {lockFree : Bool}
    {scratch : Scratch} (hstub : stub = timerInterruptEntry ∨ stub = yieldInterruptEntry)
    (h : m.tick p stub lockFree scratch = some m') :
    m'.kernel.uptimeTicks = (m.kernel.uptimeTicks + 1) % 2 ^ 64 := by
  obtain ⟨c, c', sp, kernel, nextStack, -, htick, -, rfl⟩ := tick_eq_some hstub h
  rw [(goOn_rest _).2.1]
  exact uptime_tick htick

theorem uptime_spawn {p : Platform} {m m' : Machine} {ctx : Context} {ctl : Ctl} {process : Process}
    (h : m.spawn p ctx ctl process = some m') : m'.kernel.uptimeTicks = m.kernel.uptimeTicks := by
  unfold Machine.spawn at h
  dsimp only at h
  obtain ⟨-, h⟩ := Option.ite_none_right_eq_some.mp h
  obtain ⟨r, -, rfl⟩ := Option.map_eq_some_iff.mp h
  rfl

theorem kernel_dispatchStep {p : Platform} {m m' : Machine} (h : m.dispatchStep p = some m') :
    m'.kernel = m.kernel := by
  unfold Machine.dispatchStep at h
  split at h
  · cases h
    rfl
  · obtain ⟨c, -, h⟩ := Option.bind_eq_some_iff.mp h
    obtain ⟨id, -, h⟩ := Option.bind_eq_some_iff.mp h
    cases h
    rfl
  · obtain ⟨c, -, h⟩ := Option.bind_eq_some_iff.mp h
    cases h
    rfl
  · cases h

/-- Only the two interrupts count. -/
theorem machineStep_uptime {p : Platform} {m m' : Machine} {e : MachineEvent}
    (hm : m.kernel.uptimeTicks < 2 ^ 64) (h : machineStep p m e = some m') :
    m'.kernel.uptimeTicks = (m.kernel.uptimeTicks + ticks e) % 2 ^ 64 := by
  have hsame : ∀ {m' : Machine}, m'.kernel.uptimeTicks = m.kernel.uptimeTicks →
      m'.kernel.uptimeTicks = (m.kernel.uptimeTicks + 0) % 2 ^ 64 := by
    intro m' heq
    rw [heq, Nat.add_zero, Nat.mod_eq_of_lt hm]
  cases e with
  | newTask entry process =>
    simp only [machineStep] at h
    split at h
    · exact hsame (uptime_spawn h)
    · exact hsame (uptime_spawn h)
    · cases h
  | newUser process =>
    simp only [machineStep] at h
    split at h
    · exact hsame (uptime_spawn h)
    · exact hsame (uptime_spawn h)
    · cases h
  | start =>
    simp only [machineStep] at h
    split at h
    · obtain ⟨next, rest, init, ctl, -, -, rfl⟩ := start_eq_some h
      exact hsame rfl
    · cases h
  | dispatchStep => exact hsame (congrArg _ (kernel_dispatchStep h))
  | timer lockFree scratch => exact uptime_machineTick (.inl rfl) (Option.ite_none_right_eq_some.mp h).2
  | yield lockFree scratch => exact uptime_machineTick (.inr rfl) (Option.ite_none_right_eq_some.mp h).2
  | runKernel regs writes =>
    obtain ⟨-, -, -, mem, -, rfl⟩ := runKernel_eq_some h
    exact hsame rfl
  | runUser regs =>
    obtain ⟨-, rfl⟩ := runUser_eq_some h
    exact hsame rfl
  | syscallEnter =>
    obtain ⟨-, c, -, rfl⟩ := syscallEnter_eq_some h
    exact hsame rfl
  | syscallReturn scratch result =>
    obtain ⟨entered, frame, c₁, c, -, -, -, rfl⟩ := syscallReturn_eq_some h
    exact hsame rfl
  | exit =>
    obtain ⟨-, rfl⟩ := exit_eq_some h
    exact hsame rfl
  | keyboard writes =>
    obtain ⟨c, rfl, -⟩ := keyboard_eq_some (Option.ite_none_right_eq_some.mp h).2
    exact hsame rfl
  | fault errorCode =>
    obtain ⟨-, c₁, c, -, -, rfl⟩ := fault_eq_some h
    exact hsame rfl

theorem sum_ticks (es : List MachineEvent) :
    (es.map ticks).sum = es.countP MachineEvent.isTimer + es.countP MachineEvent.isYield := by
  induction es with
  | nil => rfl
  | cons e es ih =>
    rw [List.map_cons, List.sum_cons, List.countP_cons, List.countP_cons, ih]
    cases e <;> simp [ticks, MachineEvent.isTimer, MachineEvent.isYield] <;> omega

/-- The uptime after a run. -/
theorem uptime_eq {p : Platform} {ctx : Context} {mem : Nat → Nat} {hw : Hardware}
    {es : List MachineEvent} {m : Machine}
    (h : run (machineStep p) (Machine.init p ctx mem hw) es = some m) :
    getUptimeTicks m.kernel =
      (es.countP MachineEvent.isTimer + es.countP MachineEvent.isYield) % 2 ^ 64 := by
  have hrun := @run_countdown _ _ (machineStep p)
    (fun n m => m.kernel.uptimeTicks < 2 ^ 64 ∧
      (m.kernel.uptimeTicks + n) % 2 ^ 64 = (es.map ticks).sum % 2 ^ 64) ticks
    (fun n s e s' hs hstep => by
      obtain ⟨hlt, hsum⟩ := hs
      have hnext := machineStep_uptime hlt hstep
      rw [hnext]
      refine ⟨Nat.mod_lt _ (by decide), ?_⟩
      rw [Nat.mod_add_mod, ← hsum]
      congr 1
      omega) es 0 _ m ⟨(by decide : 0 < 2 ^ 64), by rw [Nat.zero_add]; exact congrArg (· % 2 ^ 64) (Nat.zero_add _)⟩ h
  obtain ⟨hlt, hsum⟩ := hrun
  rw [Nat.add_zero, Nat.mod_eq_of_lt hlt, sum_ticks] at hsum
  exact hsum

end CounterLemmas

/-- The uptime is the number of timer interrupts exactly if the number of yields is a multiple of `2 ^ 64`,
while there are fewer timer interrupts than that. Runs with the same number of timer interrupts have the same uptime
exactly if they have the same number of yields, up to such a multiple. -/
theorem uptime_iff {p : Platform} {ctx ctx' : Context} {mem mem' : Nat → Nat} {hw hw' : Hardware}
    {es es' : List MachineEvent} {m m' : Machine}
    (h : run (machineStep p) (Machine.init p ctx mem hw) es = some m)
    (h' : run (machineStep p) (Machine.init p ctx' mem' hw') es' = some m')
    (hlt : es.countP MachineEvent.isTimer < 2 ^ 64) :
    (getUptimeTicks m.kernel = es.countP MachineEvent.isTimer ↔
      2 ^ 64 ∣ es.countP MachineEvent.isYield) ∧
    (es.countP MachineEvent.isTimer = es'.countP MachineEvent.isTimer →
      (getUptimeTicks m.kernel = getUptimeTicks m'.kernel ↔
        es.countP MachineEvent.isYield ≡ es'.countP MachineEvent.isYield [MOD 2 ^ 64])) := by
  rw [uptime_eq h, uptime_eq h']
  unfold Nat.ModEq
  omega

/-- The start of a run with one kernel task, up to its first instruction. -/
def oneTaskEvents : List MachineEvent :=
  [.newTask 0x50_0000 ⟨0, 0, 0⟩, .start] ++ List.replicate 19 .dispatchStep

/-- One timer interrupt and no yield. -/
theorem uptime_sample : ∃ m,
    run (machineStep samplePlatform) (Machine.init samplePlatform sampleContext (fun _ => 0) ⟨0, 0, 0⟩)
      (oneTaskEvents ++ [.timer true sampleScratch]) = some m ∧ getUptimeTicks m.kernel = 1 := by
  have hruns : (run (machineStep samplePlatform)
      (Machine.init samplePlatform sampleContext (fun _ => 0) ⟨0, 0, 0⟩)
      (oneTaskEvents ++ [.timer true sampleScratch])).isSome := by decide +kernel
  obtain ⟨m, hm⟩ := Option.isSome_iff_exists.mp hruns
  exact ⟨m, hm, (uptime_iff hm hm (by decide)).1.mpr (by decide)⟩

/-- The task yields three times before the first timer interrupt. -/
def yieldingEvents : List MachineEvent :=
  oneTaskEvents ++ List.replicate 3 (.yield true sampleScratch) ++ [.timer true sampleScratch]

theorem yields_count_as_ticks : ∃ m,
    run (machineStep samplePlatform) (Machine.init samplePlatform sampleContext (fun _ => 0) ⟨0, 0, 0⟩)
      yieldingEvents = some m ∧
    getUptimeTicks m.kernel = 4 ∧ yieldingEvents.countP MachineEvent.isTimer = 1 := by
  have hticks : (run (machineStep samplePlatform)
      (Machine.init samplePlatform sampleContext (fun _ => 0) ⟨0, 0, 0⟩) yieldingEvents).map
        (fun m => getUptimeTicks m.kernel) = some 4 := by decide +kernel
  obtain ⟨m, hm, heq⟩ := Option.map_eq_some_iff.mp hticks
  exact ⟨m, hm, heq, by decide⟩

end Turnix
