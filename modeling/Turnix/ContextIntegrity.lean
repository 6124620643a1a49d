import Turnix.Machine

/-!
# Contexts survive switches

What holds in every state of the machine: the context of a task that does not run lies in a frame on
the stack of that task, where nobody else writes; behind a system call in progress there is the frame
of its caller; and the block in `start_scheduling` has loaded what it has popped so far
(`MachineInv`). So a task goes on with the context with which it was suspended, and a system call
gives back the registers it was entered with (`context_integrity`).
-/

namespace Turnix

open Lib

/-! ## The invariant -/

/-- The rest of the block in `start_scheduling`, which is to load the frame of `init` at `base`, in
the context `ctx`. -/
inductive DispatchAt (mem : Nat → Nat) (base : Nat) (init ctx : Context) : List Instr → Prop
  | start (hframe : WordsAt mem base init.frame) : DispatchAt mem base init ctx (dispatchCode base)
  | pops (done todo : List Reg) (hregs : savedRegs.reverse = done ++ todo)
      (hdone : ∀ r ∈ done, ctx.gpr r = init.gpr r) (hrsp : ctx.rsp = base + 8 * done.length)
      (hframe : WordsAt mem ctx.rsp (todo.map init.gpr ++ init.hardwareFrame)) :
      DispatchAt mem base init ctx (todo.map .pop ++ [.testCs, .jz 1, .swapgs, .iretq])
  | jump (hgpr : ctx.gpr = init.gpr) (hrsp : ctx.rsp = base + 120)
      (hframe : WordsAt mem ctx.rsp init.hardwareFrame)
      (hzero : zeroFlag ctx.rflags = !ring3 init.cs) :
      DispatchAt mem base init ctx [.jz 1, .swapgs, .iretq]
  | swap (hgpr : ctx.gpr = init.gpr) (hrsp : ctx.rsp = base + 120)
      (hframe : WordsAt mem ctx.rsp init.hardwareFrame) (hring : ring3 init.cs = true) :
      DispatchAt mem base init ctx [.swapgs, .iretq]
  | last (hgpr : ctx.gpr = init.gpr) (hrsp : ctx.rsp = base + 120)
      (hframe : WordsAt mem ctx.rsp init.hardwareFrame) : DispatchAt mem base init ctx [.iretq]

/-- A task with context `ctx` under `ctl` can go on. -/
def CtlOk (mem : Nat → Nat) (id : TaskId) (ctx : Context) : Ctl → Prop
  | .boot => False
  | .kernel => ring3 ctx.cs = false
  | .user => ctx.cs = 0x2b ∧ ctx.ss = 0x23
  | .syscall entered frame =>
    ring3 ctx.cs = false ∧ entered.cs = 0x2b ∧ entered.ss = 0x23 ∧ frame + 160 = stackTop id ∧
      ctx.rsp ≤ frame ∧ WordsAt mem frame entered.atSyscall.frame
  | .exiting => ring3 ctx.cs = false
  | .dispatch rest init =>
    ring3 ctx.cs = false ∧ (ring3 init.cs = true → init.cs = 0x2b ∧ init.ss = 0x23) ∧
      DispatchAt mem (stackTop id - 160) init ctx rest

/-- A task that does not run: its context is in a frame at `sp`, on its stack. -/
structure SavedOk (p : Platform) (mem : Nat → Nat) (sp : Nat) (id : TaskId) (ctx : Context)
    (ctl : Ctl) : Prop where
  frame : WordsAt mem sp ctx.frame
  home : ∀ i, i < 20 → stackOf p (some id) ctl (sp + 8 * i) = true
  goes_on : CtlOk mem id ctx ctl

/-- A system call gives back all registers but `rax`, `rcx` and `r11`. -/
def SyscallReturn.Ok (r : SyscallReturn) : Prop :=
  r.returned = { r.entered with gpr := fun
    | .rax => r.result
    | .rcx => r.entered.rip
    | .r11 => r.entered.rflags
    | reg => r.entered.gpr reg }

/-- What holds between any two steps. -/
structure MachineInv (p : Platform) (m : Machine) : Prop where
  nodup : m.kernel.liveIds.Nodup
  fresh : ∀ id ∈ m.kernel.liveIds, id < m.nextId
  clear : ∀ id ∈ m.kernel.liveIds, p.clear id = true
  tops : ∀ t ∈ m.kernel.liveTasks, t.kernelStackTop = stackTop t.id
  hw : ∀ id, m.kernel.currentId = some id →
    m.kernel.hw.privilegeStack = stackTop id ∧ m.kernel.hw.kernelStackPtr = stackTop id
  queued : ∀ t ∈ m.kernel.sched.tasks, ∃ ctx ctl, m.saved t.id = some (ctx, ctl) ∧
    SavedOk p m.core.mem t.stackPtr t.id ctx ctl ∧ (ctl.onBootStack = true → m.first = some t.id)
  running : ∀ id, m.kernel.currentId = some id → CtlOk m.core.mem id m.core.cpu.toContext m.ctl
  idle : m.kernel.currentId = none → m.ctl = .boot
  boot_ring : m.ctl = .boot → ring3 m.core.cpu.cs = false
  on_boot_stack : m.ctl.onBootStack = true → m.first = m.kernel.currentId
  booting : m.ctl = .boot → ∀ t ∈ m.kernel.sched.tasks, t.stackPtr + 160 = stackTop t.id ∧
    ∃ ctx ctl, m.saved t.id = some (ctx, ctl) ∧ (ctl = .kernel ∨ ctl = .user)
  resumed : ∀ r ∈ m.resumed, r.resumed = r.suspended
  returned : ∀ r ∈ m.returned, r.Ok

namespace MachineLemmas

open CpuLemmas EntryLemmas

/-! ## Stacks are apart -/

theorem stackTop_mod (id : TaskId) : stackTop id % 8 = 0 := by
  unfold stackTop stackBottom kernelStackRegionBase stackStride
  omega

theorem onStack_iff {id : TaskId} {a : Nat} :
    onStack id a = true ↔ a % 8 = 0 ∧ stackBottom id ≤ a ∧ a + 8 ≤ stackTop id := by
  unfold onStack
  exact decide_eq_true_iff

/-- The twenty words at the top of a stack. -/
theorem onStack_frame {id : TaskId} {base i : Nat} (hbase : base + 160 = stackTop id) (hi : i < 20) :
    onStack id (base + 8 * i) = true := by
  have hmod := stackTop_mod id
  have htop : stackTop id = stackBottom id + 8 * 4096 := rfl
  rw [onStack_iff]
  omega

theorem onStack_ne {id id' : TaskId} {a : Nat} (h : onStack id a = true) (hne : id' ≠ id) :
    onStack id' a = false := by
  by_contra hc
  rw [Bool.not_eq_false] at hc
  rw [onStack_iff] at h hc
  unfold stackTop stackBottom kernelStackRegionBase stackStride at h hc
  rcases Nat.lt_or_gt_of_ne hne with hlt | hlt <;> omega

theorem onStack_of_clear {p : Platform} {id : TaskId} {a : Nat} (hclear : p.clear id = true)
    (h : p.onBootStack a = true) : onStack id a = false := by
  by_contra hc
  rw [Bool.not_eq_false, onStack_iff] at hc
  unfold Platform.clear at hclear
  unfold Platform.onBootStack at h
  simp only [decide_eq_true_eq] at hclear h
  omega

/-- Two tasks that are not both on the boot stack have no word in common. -/
theorem stackOf_apart {p : Platform} {cur : Option TaskId} {id : TaskId} {ctl : Ctl} (ctl' : Ctl)
    {a : Nat} (hne : cur ≠ some id) (hclear : ∀ i, cur = some i → p.clear i = true)
    (hclear' : p.clear id = true)
    (hboot : ctl.onBootStack = true → ctl'.onBootStack = true → False)
    (h : stackOf p cur ctl a = true) :
    onStack id a = false ∧ stackOf p (some id) ctl' a = false := by
  unfold stackOf at h
  have hown : onStack id a = false := by
    split at h
    · exact onStack_of_clear hclear' h
    · cases cur with
      | none => cases h
      | some i => exact onStack_ne h fun heq => hne (congrArg some heq.symm)
  refine ⟨hown, ?_⟩
  unfold stackOf
  split
  · next hb' =>
    by_contra hc
    rw [Bool.not_eq_false] at hc
    split at h
    · next hb => exact hboot hb hb'
    · cases cur with
      | none => cases h
      | some i =>
        have := onStack_of_clear (hclear i rfl) hc
        rw [Option.any_some, this] at h
        cases h
  · exact hown

/-! ## Memory that others leave alone -/

/-- Nobody else writes to the stack of a task. -/
theorem ctlOk_of_foreign {mem mem' : Nat → Nat} {id : TaskId} {ctx : Context} {ctl : Ctl}
    (h : CtlOk mem id ctx ctl) (hmem : ∀ a, onStack id a = true → mem' a = mem a) :
    CtlOk mem' id ctx ctl := by
  have htop : 160 ≤ stackTop id := by
    unfold stackTop stackBottom kernelStackRegionBase
    omega
  have hbase : stackTop id - 160 + 160 = stackTop id := by omega
  cases ctl with
  | boot => exact h
  | kernel => exact h
  | user => exact h
  | exiting => exact h
  | syscall entered frame =>
    obtain ⟨hring, hcs, hss, hframe, hrsp, hwords⟩ := h
    exact ⟨hring, hcs, hss, hframe, hrsp,
      hwords.congr fun i hi => hmem _ (onStack_frame hframe hi)⟩
  | dispatch rest init =>
    obtain ⟨hring, hinit, hat⟩ := h
    refine ⟨hring, hinit, ?_⟩
    have hhw : ∀ rsp, rsp = stackTop id - 160 + 120 → WordsAt mem rsp init.hardwareFrame →
        WordsAt mem' rsp init.hardwareFrame := by
      rintro rsp hrsp hwords
      refine hwords.congr fun i hi => hmem _ ?_
      have hi' : i < 5 := hi
      have := onStack_frame hbase (show i + 15 < 20 by omega)
      rwa [show stackTop id - 160 + 8 * (i + 15) = rsp + 8 * i by omega] at this
    cases hat with
    | start hframe => exact .start (hframe.congr fun i hi => hmem _ (onStack_frame hbase hi))
    | pops done todo hregs hdone hrsp hframe =>
      refine .pops done todo hregs hdone hrsp (hframe.congr fun i hi => hmem _ ?_)
      have hlen : done.length + todo.length = 15 := by
        rw [← List.length_append, ← hregs]
        rfl
      rw [List.length_append, List.length_map] at hi
      have hi' : i < todo.length + 5 := hi
      have := onStack_frame hbase (show i + done.length < 20 by omega)
      rwa [show stackTop id - 160 + 8 * (i + done.length) = ctx.rsp + 8 * i by omega] at this
    | jump hgpr hrsp hframe hzero => exact .jump hgpr hrsp (hhw _ hrsp hframe) hzero
    | swap hgpr hrsp hframe hr => exact .swap hgpr hrsp (hhw _ hrsp hframe) hr
    | last hgpr hrsp hframe => exact .last hgpr hrsp (hhw _ hrsp hframe)

theorem savedOk_of_foreign {p : Platform} {mem mem' : Nat → Nat} {sp : Nat} {id : TaskId}
    {ctx : Context} {ctl : Ctl} (h : SavedOk p mem sp id ctx ctl)
    (hmem : ∀ a, onStack id a = true ∨ stackOf p (some id) ctl a = true → mem' a = mem a) :
    SavedOk p mem' sp id ctx ctl :=
  ⟨h.frame.congr fun i hi => hmem _ (.inr (h.home i hi)), h.home,
    ctlOk_of_foreign h.goes_on fun a ha => hmem a (.inl ha)⟩

/-- The frame that a dispatch pops from stays as it is, if only words of this stack below its pointer are
written. -/
theorem dispatchAt_of_pushes {p : Platform} {mem mem' : Nat → Nat} {id : TaskId} {base : Nat}
    {init ctx : Context} {rest : List Instr} (h : DispatchAt mem base init ctx rest)
    (hbase : base + 160 = stackTop id) (hclear : p.clear id = true)
    (hmem : OnlyBelow (stackOf p (some id) (.dispatch rest init)) ctx.rsp mem mem') :
    DispatchAt mem' base init ctx rest := by
  cases h with
  | start hframe =>
    -- the block has not left the boot stack yet, and the frame is on the stack of the task
    refine .start (hframe.congr fun i hi => ?_)
    rcases hmem (base + 8 * i) with heq | ⟨hok, -⟩
    · exact heq
    · have hon := onStack_frame hbase hi
      rw [onStack_of_clear hclear hok] at hon
      cases hon
  | pops done todo hregs hdone hrsp hframe =>
    exact .pops done todo hregs hdone hrsp (hframe.congr fun i _ => hmem.eq_of_le (by omega))
  | jump hgpr hrsp hframe hzero =>
    exact .jump hgpr hrsp (hframe.congr fun i _ => hmem.eq_of_le (by omega)) hzero
  | swap hgpr hrsp hframe hr =>
    exact .swap hgpr hrsp (hframe.congr fun i _ => hmem.eq_of_le (by omega)) hr
  | last hgpr hrsp hframe =>
    exact .last hgpr hrsp (hframe.congr fun i _ => hmem.eq_of_le (by omega))

theorem stackTop_sub (id : TaskId) : stackTop id - 160 + 160 = stackTop id := by
  refine Nat.sub_add_cancel ?_
  unfold stackTop
  omega

/-- What an interrupt pushes is out of the way of the interrupted code. -/
theorem ctlOk_of_pushes {p : Platform} {mem mem' : Nat → Nat} {id : TaskId} {cpu : Cpu} {ctl : Ctl}
    {ps : Nat} (h : CtlOk mem id cpu.toContext ctl) (hclear : p.clear id = true)
    (hmem : OnlyBelow (stackOf p (some id) ctl) (interruptTop ps cpu) mem mem') :
    CtlOk mem' id cpu.toContext ctl := by
  have htop : ring3 cpu.cs = false → interruptTop ps cpu = cpu.rsp := by
    intro hr
    rw [interruptTop, hr, if_neg (by decide)]
  cases ctl with
  | boot => exact h
  | kernel => exact h
  | user => exact h
  | exiting => exact h
  | syscall entered frame =>
    obtain ⟨hring, hcs, hss, hframe, hrsp, hwords⟩ := h
    rw [htop hring] at hmem
    exact ⟨hring, hcs, hss, hframe, hrsp, hwords.congr fun i _ => hmem.eq_of_le (by omega)⟩
  | dispatch rest init =>
    obtain ⟨hring, hinit, hat⟩ := h
    rw [htop hring] at hmem
    exact ⟨hring, hinit, dispatchAt_of_pushes hat (stackTop_sub id) hclear hmem⟩

/-! ## Steps that do not switch -/

theorem liveIds_eq (k : Kernel) :
    k.liveIds = k.sched.tasks.map Task.id ++ k.currentId.toList := by
  unfold Kernel.liveIds Kernel.liveTasks Kernel.currentId
  cases k.sched.currentTask <;> simp

theorem current_ne_queued {p : Platform} {m : Machine} (hs : MachineInv p m) {t : Task}
    (ht : t ∈ m.kernel.sched.tasks) : m.kernel.currentId ≠ some t.id := by
  intro hcur
  have hnodup := hs.nodup
  rw [liveIds_eq, hcur, Option.toList_some, List.nodup_append] at hnodup
  exact hnodup.2.2 t.id (List.mem_map_of_mem ht) t.id List.mem_cons_self rfl

theorem queued_live {k : Kernel} {t : Task} (ht : t ∈ k.sched.tasks) : t.id ∈ k.liveIds := by
  rw [liveIds_eq]
  exact List.mem_append_left _ (List.mem_map_of_mem ht)

theorem current_live {k : Kernel} {id : TaskId} (h : k.currentId = some id) : id ∈ k.liveIds := by
  rw [liveIds_eq, h]
  exact List.mem_append_right _ List.mem_cons_self

theorem current_top {p : Platform} {m : Machine} (hs : MachineInv p m) {t : Task}
    (ht : m.kernel.sched.currentTask = some t) : t.kernelStackTop = stackTop t.id := by
  refine hs.tops t ?_
  rw [Kernel.liveTasks, ht]
  exact List.mem_append_right _ List.mem_cons_self

/-- The frames of the other tasks survive what the current one writes. -/
theorem saved_of_own {p : Platform} {m : Machine} (hs : MachineInv p m) {mem : Nat → Nat}
    (hmem : ∀ a, mem a = m.core.mem a ∨ stackOf p m.kernel.currentId m.ctl a = true) {t : Task}
    (ht : t ∈ m.kernel.sched.tasks) {ctx : Context} {ctl : Ctl}
    (hsaved : SavedOk p m.core.mem t.stackPtr t.id ctx ctl)
    (hfirst : ctl.onBootStack = true → m.first = some t.id) :
    SavedOk p mem t.stackPtr t.id ctx ctl := by
  have hne := current_ne_queued hs ht
  refine savedOk_of_foreign hsaved fun a ha => ?_
  rcases hmem a with heq | hown
  · exact heq
  · have hapart := stackOf_apart ctl hne
      (fun i hi => hs.clear i (current_live hi)) (hs.clear t.id (queued_live ht))
      (fun hb hb' => hne ((hs.on_boot_stack hb).symm.trans (hfirst hb'))) hown
    rcases ha with ha | ha
    · rw [hapart.1] at ha
      cases ha
    · rw [hapart.2] at ha
      cases ha

/-- The frame rule of the machine: a step that leaves the queue and the current task as they are,
and writes only to the stack it runs on, keeps the invariant if the current task can go on. -/
theorem inv_of_own {p : Platform} {m m' : Machine} (hs : MachineInv p m)
    (htasks : m'.kernel.sched.tasks = m.kernel.sched.tasks)
    (hcur : m'.kernel.currentId = m.kernel.currentId) (hhw : m'.kernel.hw = m.kernel.hw)
    (htop : ∀ t, m'.kernel.sched.currentTask = some t → t.kernelStackTop = stackTop t.id)
    (hnext : m'.nextId = m.nextId) (hfirst : m'.first = m.first)
    (hsaved : ∀ t ∈ m.kernel.sched.tasks, m'.saved t.id = m.saved t.id)
    (hmem : ∀ a, m'.core.mem a = m.core.mem a ∨ stackOf p m.kernel.currentId m.ctl a = true)
    (hrun : ∀ id, m.kernel.currentId = some id →
      CtlOk m'.core.mem id m'.core.cpu.toContext m'.ctl)
    (hidle : m.ctl = .boot ↔ m'.ctl = .boot)
    (hcs : m'.ctl = .boot → m'.core.cpu.cs = m.core.cpu.cs)
    (hboot : m'.ctl.onBootStack = true → m.ctl.onBootStack = true)
    (hresumed : ∀ r ∈ m'.resumed, r.resumed = r.suspended)
    (hreturned : ∀ r ∈ m'.returned, r.Ok) : MachineInv p m' := by
  have hlive : m'.kernel.liveIds = m.kernel.liveIds := by
    rw [liveIds_eq, liveIds_eq, htasks, hcur]
  constructor
  case nodup => exact hlive ▸ hs.nodup
  case fresh => exact hlive ▸ hnext ▸ hs.fresh
  case clear => exact hlive ▸ hs.clear
  case tops =>
    intro t ht
    rcases List.mem_append.mp ht with ht | ht
    · exact hs.tops t (List.mem_append_left _ (htasks ▸ ht))
    · exact htop t (Option.mem_toList.mp ht)
  case hw => exact hhw ▸ hcur ▸ hs.hw
  case queued =>
    intro t ht
    rw [htasks] at ht
    obtain ⟨ctx, ctl, hctx, hok, hf⟩ := hs.queued t ht
    exact ⟨ctx, ctl, (hsaved t ht).trans hctx, saved_of_own hs hmem ht hok hf,
      fun hb => hfirst.trans (hf hb)⟩
  case running => exact hcur ▸ hrun
  case idle => exact fun h => hidle.mp (hs.idle (hcur ▸ h))
  case boot_ring => exact fun h => (hcs h).symm ▸ hs.boot_ring (hidle.mpr h)
  case on_boot_stack => exact fun h => hfirst.trans ((hs.on_boot_stack (hboot h)).trans hcur.symm)
  case booting =>
    intro h t ht
    rw [htasks] at ht
    rw [hsaved t ht]
    exact hs.booting (hidle.mpr h) t ht
  case resumed => exact hresumed
  case returned => exact hreturned

theorem currentId_exitMark (k : Kernel) : (exitMark k).currentId = k.currentId := by
  unfold Kernel.currentId exitMark
  cases k.sched.currentTask <;> rfl

theorem top_exitMark {p : Platform} {m : Machine} (hs : MachineInv p m) {t : Task}
    (ht : (exitMark m.kernel).sched.currentTask = some t) : t.kernelStackTop = stackTop t.id := by
  obtain ⟨t', ht', rfl⟩ := Option.map_eq_some_iff.mp ht
  have htop := current_top hs ht'
  exact htop

/-- A task in ring 3 or in kernel code is not booting. -/
theorem running_ctl {p : Platform} {m : Machine} (hs : MachineInv p m) (hne : m.ctl ≠ .boot) :
    ∃ id, m.kernel.currentId = some id ∧ CtlOk m.core.mem id m.core.cpu.toContext m.ctl := by
  cases hcur : m.kernel.currentId with
  | none => exact absurd (hs.idle hcur) hne
  | some id => exact ⟨id, rfl, hs.running id hcur⟩

theorem runKernel_inv {p : Platform} {m m' : Machine} {regs : RunRegs}
    {writes : List (Nat × Nat)} (hs : MachineInv p m) (h : m.runKernel p regs writes = some m') :
    MachineInv p m' := by
  obtain ⟨huser, hdisp, hsp, mem, hmem, rfl⟩ := runKernel_eq_some h
  have hbelow := scribble_onlyBelow hmem
  refine inv_of_own hs rfl rfl rfl (fun t ht => current_top hs ht) rfl rfl (fun _ _ => rfl)
    (fun a => (hbelow a).imp_right And.left) (fun id hid => ?_) Iff.rfl (fun _ => rfl) (fun hb => hb)
    hs.resumed hs.returned
  have hctl := hs.running id hid
  show CtlOk mem id _ m.ctl
  revert hctl hsp hbelow huser hdisp
  cases m.ctl with
  | boot => exact fun _ _ _ _ hctl => hctl
  | kernel => exact fun _ _ _ _ hctl => hctl
  | exiting => exact fun _ _ _ _ hctl => hctl
  | user => exact fun huser _ _ _ _ => absurd rfl huser
  | dispatch rest init => exact fun _ hdisp _ _ _ => absurd rfl (hdisp rest init)
  | syscall entered frame =>
    rintro - - hsp hbelow ⟨hring, hcs, hss, hframe, -, hwords⟩
    exact ⟨hring, hcs, hss, hframe, of_decide_eq_true hsp,
      hwords.congr fun i _ => hbelow.eq_of_le (by show frame ≤ _; omega)⟩

theorem runUser_inv {p : Platform} {m m' : Machine} {regs : RunRegs} (hs : MachineInv p m)
    (h : m.runUser regs = some m') : MachineInv p m' := by
  obtain ⟨hctl, rfl⟩ := runUser_eq_some h
  refine inv_of_own hs rfl rfl rfl (fun t ht => current_top hs ht) rfl rfl (fun _ _ => rfl)
    (fun a => .inl rfl) (fun id hid => ?_) Iff.rfl (fun _ => rfl) (fun hb => hb) hs.resumed
    hs.returned
  have hok := hs.running id hid
  rw [hctl] at hok ⊢
  exact hok

theorem exit_inv {p : Platform} {m m' : Machine} (hs : MachineInv p m) (h : m.exit = some m') :
    MachineInv p m' := by
  obtain ⟨hctl, rfl⟩ := exit_eq_some h
  have hne : m.ctl ≠ .boot := by
    rcases hctl with hctl | ⟨entered, frame, hctl⟩ <;> rw [hctl] <;> nofun
  refine inv_of_own hs rfl (currentId_exitMark m.kernel) rfl (fun t ht => top_exitMark hs ht) rfl
    rfl (fun _ _ => rfl) (fun a => .inl rfl) (fun id hid => ?_) ⟨fun h => absurd h hne, nofun⟩ nofun nofun
    hs.resumed hs.returned
  have hok := hs.running id hid
  rcases hctl with hctl | ⟨entered, frame, hctl⟩
  · rw [hctl] at hok
    exact hok
  · rw [hctl] at hok
    exact hok.1

/-! ## System calls, the keyboard and faults -/

theorem call_eq_some {env : Env} {scratch : Scratch} {c c' : Core}
    (h : c.call env scratch = some c') :
    ∃ mem, OnlyBelow env.writable c.cpu.rsp c.mem mem ∧
      c' = { c with mem := mem, cpu := { c.cpu with gpr := scratch.gpr } } := by
  obtain ⟨mem, hmem, rfl⟩ := Option.map_eq_some_iff.mp h
  exact ⟨mem, scribble_onlyBelow hmem, rfl⟩

theorem syscallEnter_inv {p : Platform} {m m' : Machine} (hs : MachineInv p m)
    (h : m.syscallEnter p = some m') : MachineInv p m' := by
  obtain ⟨hctl, c, hexec, rfl⟩ := syscallEnter_eq_some h
  obtain ⟨-, hframe, hsp, hbelow, -, -, hcs⟩ := exec_syscallEntry hexec
  refine inv_of_own hs rfl rfl rfl (fun t ht => current_top hs ht) rfl rfl (fun _ _ => rfl)
    (fun a => (hbelow a).imp_right And.left) (fun id hid => ?_)
    ⟨fun h => absurd (h.symm.trans hctl) nofun, nofun⟩ nofun nofun hs.resumed hs.returned
  have huser := hs.running id hid
  rw [hctl] at huser
  refine ⟨?_, huser.1, huser.2, hsp.trans (hs.hw id hid).2, Nat.le_refl _, hframe⟩
  show ring3 c.cpu.cs = false
  rw [hcs, ring3_kernel]

theorem syscallReturn_ok (entered : Context) (hcs : entered.cs = 0x2b) (hss : entered.ss = 0x23)
    (result : Nat) : SyscallReturn.Ok ⟨entered, { entered.atSyscall with
      gpr := Function.update entered.atSyscall.gpr .rax result }, result⟩ := by
  unfold SyscallReturn.Ok
  ext r
  · cases r <;> rfl
  · rfl
  · exact hcs.symm
  · rfl
  · rfl
  · exact hss.symm

theorem syscallReturn_inv {p : Platform} {m m' : Machine} {scratch : Scratch} {result : Nat}
    (hs : MachineInv p m) (h : m.syscallReturn p scratch result = some m') : MachineInv p m' := by
  obtain ⟨entered, frame, c₁, c, hctl, hcall, hexec, rfl⟩ := syscallReturn_eq_some h
  obtain ⟨mem, hmem, rfl⟩ := call_eq_some hcall
  obtain ⟨id, hid, hok⟩ := running_ctl hs (by rw [hctl]; nofun)
  rw [hctl] at hok
  obtain ⟨-, hcs, hss, -, -, hwords⟩ := hok
  have hwords₁ : WordsAt mem frame entered.atSyscall.frame :=
    hwords.congr fun i _ => hmem.eq_of_le (by show frame ≤ _; omega)
  obtain ⟨hctx, hbelow, -⟩ := exec_syscallExit hwords₁ hexec
  rw [Cpu.setReg_self] at hctx
  refine inv_of_own hs rfl rfl rfl (fun t ht => current_top hs ht) rfl rfl (fun _ _ => rfl)
    (fun a => ?_) (fun id _ => ?_) ⟨fun h => absurd (h.symm.trans hctl) nofun, nofun⟩ nofun
    nofun hs.resumed (fun r hr => ?_)
  · rcases hbelow a with heq | ⟨hown, -⟩
    · exact (hmem a).imp heq.trans And.left
    · exact .inr hown
  · show c.cpu.toContext.cs = 0x2b ∧ c.cpu.toContext.ss = 0x23
    rw [hctx]
    exact ⟨rfl, rfl⟩
  · rcases List.mem_cons.mp hr with rfl | hr
    · rw [hctx]
      exact syscallReturn_ok entered hcs hss result
    · exact hs.returned r hr

theorem env_writable {p : Platform} {m : Machine} {id : TaskId} (h : m.kernel.currentId = some id) :
    (m.env p).writable = stackOf p (some id) m.ctl := by
  rw [← h]
  rfl

/-- A keyboard interrupt leaves the CPU as it found it. -/
theorem keyboard_eq_some {p : Platform} {m m' : Machine} {writes : List (Nat × Nat)}
    (h : m.keyboard p writes = some m') : ∃ c, m' = { m with core := c } ∧ c.cpu = m.core.cpu ∧
      OnlyBelow (m.env p).writable (interruptTop m.kernel.hw.privilegeStack m.core.cpu) m.core.mem
        c.mem := by
  obtain ⟨c₁, hint, h⟩ := Option.bind_eq_some_iff.mp h
  obtain ⟨mem, hmem, h⟩ := Option.bind_eq_some_iff.mp h
  obtain ⟨hframe, hgpr, htop, hbelow, -, hgs, hkgs, -⟩ := interrupt_eq_some hint
  have hscribble := scribble_onlyBelow hmem
  have hframe' : WordsAt mem c₁.cpu.rsp m.core.cpu.toContext.hardwareFrame :=
    hframe.congr fun i _ => hscribble.eq_of_le (by omega)
  rw [iretq_of_wordsAt (c := { c₁ with mem := mem }) m.core.cpu.toContext hframe'] at h
  cases h
  refine ⟨_, rfl, ?_, hbelow.trans hscribble (by omega)⟩
  show (⟨{ m.core.cpu.toContext with gpr := c₁.cpu.gpr }, c₁.cpu.gsBase, c₁.cpu.kernelGsBase⟩ : Cpu) =
    m.core.cpu
  rw [hgpr, hgs, hkgs]

theorem keyboard_inv {p : Platform} {m m' : Machine} {writes : List (Nat × Nat)}
    (hs : MachineInv p m) (h : m.keyboard p writes = some m') : MachineInv p m' := by
  obtain ⟨c, rfl, hcpu, hbelow⟩ := keyboard_eq_some h
  refine inv_of_own hs rfl rfl rfl (fun t ht => current_top hs ht) rfl rfl (fun _ _ => rfl)
    (fun a => (hbelow a).imp_right And.left) (fun id hid => ?_) Iff.rfl
    (fun _ => congrArg (fun cpu => cpu.cs) hcpu) (fun hb => hb) hs.resumed hs.returned
  have hbelow' : OnlyBelow (stackOf p (some id) m.ctl) _ m.core.mem c.mem :=
    env_writable hid ▸ hbelow
  have hok := ctlOk_of_pushes (hs.running id hid) (hs.clear id (current_live hid)) hbelow'
  show CtlOk c.mem id c.cpu.toContext m.ctl
  rw [hcpu]
  exact hok

theorem fault_inv {p : Platform} {m m' : Machine} {errorCode : Nat} (hs : MachineInv p m)
    (h : m.fault p errorCode = some m') : MachineInv p m' := by
  obtain ⟨hctl, c₁, c, hint, hpush, rfl⟩ := fault_eq_some h
  obtain ⟨-, -, htop, hbelow, -, -, -, hcs⟩ := interrupt_eq_some hint
  have hbelow' := hbelow.trans (pushAll_onlyBelow hpush) (by omega)
  obtain ⟨sp, mem, rfl, -⟩ := pushAll_eq_some hpush
  refine inv_of_own hs rfl (currentId_exitMark m.kernel) rfl (fun t ht => top_exitMark hs ht) rfl
    rfl (fun _ _ => rfl) (fun a => (hbelow' a).imp_right And.left) (fun id hid => ?_)
    ⟨fun h => absurd (h.symm.trans hctl) nofun, nofun⟩ nofun nofun hs.resumed hs.returned
  show ring3 c₁.cpu.cs = false
  rw [hcs, ring3_kernel]

/-! ## The block in `start_scheduling` -/

/-- A step of the block that neither jumps nor leaves it. -/
theorem dispatch_inv {p : Platform} {m : Machine} {c : Core} {id : TaskId} {base : Nat}
    {rest rest' : List Instr} {init : Context} (hs : MachineInv p m) (hctl : m.ctl = .dispatch rest init)
    (hid : m.kernel.currentId = some id) (hmem : c.mem = m.core.mem)
    (hcs : ring3 c.cpu.cs = false)
    (hboot : (Ctl.dispatch rest' init).onBootStack = false)
    (hbase : stackTop id - 160 = base) (hat : DispatchAt m.core.mem base init c.cpu.toContext rest') :
    MachineInv p { m with core := c, ctl := .dispatch rest' init } := by
  refine inv_of_own hs rfl rfl rfl (fun t ht => current_top hs ht) rfl rfl (fun _ _ => rfl)
    (fun a => .inl (congrFun hmem a)) (fun id' hid' => ?_)
    ⟨fun h => absurd (h.symm.trans hctl) nofun, nofun⟩ nofun
    (fun hb => absurd hb (by rw [hboot]; decide)) hs.resumed hs.returned
  have hok := hs.running id hid
  rw [hctl] at hok
  obtain rfl : id = id' := Option.some.inj (hid.symm.trans hid')
  refine ⟨hcs, hok.2.1, ?_⟩
  show DispatchAt c.mem _ _ _ _
  rw [hmem, hbase]
  exact hat

/-- The block first loads the pointer to the frame. -/
theorem dispatchStep_start {p : Platform} {m : Machine} {base : Nat} {init : Context}
    (hctl : m.ctl = .dispatch (dispatchCode base) init) :
    m.dispatchStep p = some { m with
      core := { m.core with cpu := { m.core.cpu with rsp := base } }
      ctl := .dispatch (popRegs ++ [.testCs, .jz 1, .swapgs, .iretq]) init } := by
  rw [Machine.dispatchStep, hctl]
  rfl

/-- The block ends with the context of the task. -/
theorem dispatchStep_iretq {p : Platform} {m m' : Machine} {id : TaskId} {init : Context}
    (hs : MachineInv p m) (hctl : m.ctl = .dispatch [.iretq] init) (hid : m.kernel.currentId = some id)
    (hinit : ring3 init.cs = true → init.cs = 0x2b ∧ init.ss = 0x23) (hgpr : m.core.cpu.gpr = init.gpr)
    (hframe : WordsAt m.core.mem m.core.cpu.rsp init.hardwareFrame)
    (h : m.dispatchStep p = some m') : MachineInv p m' := by
  simp only [Machine.dispatchStep, hctl, iretq_of_wordsAt init hframe, hid] at h
  cases h
  have hctx : ({ init with gpr := m.core.cpu.gpr } : Context) = init := by rw [hgpr]
  simp only [hctx]
  refine inv_of_own hs rfl rfl rfl (fun t ht => current_top hs ht) rfl rfl (fun _ _ => rfl)
    (fun a => .inl rfl) (fun id' _ => ?_) ⟨fun h => absurd (h.symm.trans hctl) (by simp), ?_⟩ ?_ ?_
    ?_ hs.returned
  · show CtlOk _ _ init _
    dsimp only
    split
    · next hr => exact hinit hr
    · next hr => exact Bool.eq_false_iff.mpr hr
  · dsimp only
    split <;> exact fun hne => absurd hne (by simp)
  · dsimp only
    split <;> exact fun hne => absurd hne (by simp)
  · dsimp only
    split <;> exact fun hne => absurd hne (by simp [Ctl.onBootStack])
  · intro r hr
    rcases List.mem_cons.mp hr with rfl | hr
    · rfl
    · exact hs.resumed r hr

/-- A step of the block, by the place in it. -/
theorem dispatchStep_at {p : Platform} {m m' : Machine} {id : TaskId} {base : Nat} {init : Context}
    {rest : List Instr} (hs : MachineInv p m) (hctl : m.ctl = .dispatch rest init)
    (hid : m.kernel.currentId = some id) (hring : ring3 m.core.cpu.cs = false)
    (hinit : ring3 init.cs = true → init.cs = 0x2b ∧ init.ss = 0x23) (hbase : stackTop id - 160 = base)
    (hat : DispatchAt m.core.mem base init m.core.cpu.toContext rest)
    (h : m.dispatchStep p = some m') : MachineInv p m' := by
  cases hat with
  | start hframe =>
    rw [dispatchStep_start hctl] at h
    cases h
    exact dispatch_inv hs hctl hid rfl hring rfl hbase
      (.pops [] savedRegs.reverse rfl (by simp) (Nat.add_zero _).symm hframe)
  | pops done todo hregs hdone hrsp hframe =>
    cases todo with
    | nil =>
      simp only [Machine.dispatchStep, hctl, List.map_nil, List.nil_append, Instr.step] at h
      cases h
      rw [List.append_nil] at hregs
      have hframe' : WordsAt m.core.mem m.core.cpu.rsp init.hardwareFrame := hframe
      have hcs : m.core.mem (m.core.cpu.rsp + 8) = init.cs :=
        (wordsAt_cons.mp (wordsAt_cons.mp hframe').2).1
      refine dispatch_inv hs hctl hid rfl hring rfl hbase (.jump ?_ ?_ hframe' ?_)
      · funext r
        refine hdone r ?_
        rw [← hregs]
        exact List.mem_reverse.mpr (mem_savedRegs r)
      · rw [hrsp, ← hregs]
        rfl
      · show zeroFlag (testFlags _ _) = _
        rw [zeroFlag_testFlags, hcs, ring3]
        simp
    | cons r todo =>
      simp only [Machine.dispatchStep, hctl, List.map_cons, List.cons_append, Instr.step] at h
      cases h
      obtain ⟨hr, hrest⟩ := wordsAt_cons.mp hframe
      refine dispatch_inv hs hctl hid rfl hring ?_ hbase (.pops (done ++ [r]) todo ?_ ?_ ?_ hrest)
      · cases todo <;> rfl
      · rw [hregs, List.append_assoc]
        rfl
      · intro q hq
        show Function.update m.core.cpu.gpr r (m.core.mem m.core.cpu.rsp) q = init.gpr q
        by_cases hqr : q = r
        · subst hqr
          rw [Function.update_self, hr]
        · rw [Function.update_of_ne hqr]
          rcases List.mem_append.mp hq with hq | hq
          · exact hdone q hq
          · exact absurd (List.mem_singleton.mp hq) hqr
      · show m.core.cpu.rsp + 8 = _
        rw [hrsp, List.length_append, List.length_singleton]
        omega
  | jump hgpr hrsp hframe hzero =>
    simp only [Machine.dispatchStep, hctl] at h
    cases h
    cases hr : ring3 init.cs with
    | true =>
      rw [hr, Bool.not_true] at hzero
      simp only [hzero, Bool.false_eq_true, ↓reduceIte]
      exact dispatch_inv hs hctl hid rfl hring rfl hbase (.swap hgpr hrsp hframe hr)
    | false =>
      rw [hr, Bool.not_false] at hzero
      simp only [hzero, ↓reduceIte, List.drop_succ_cons, List.drop_zero]
      exact dispatch_inv hs hctl hid rfl hring rfl hbase (.last hgpr hrsp hframe)
  | swap hgpr hrsp hframe hr =>
    simp only [Machine.dispatchStep, hctl, Instr.step] at h
    cases h
    exact dispatch_inv hs hctl hid rfl hring rfl hbase (.last hgpr hrsp hframe)
  | last hgpr hrsp hframe => exact dispatchStep_iretq hs hctl hid hinit hgpr hframe h

theorem dispatchStep_inv {p : Platform} {m m' : Machine} (hs : MachineInv p m)
    (h : m.dispatchStep p = some m') : MachineInv p m' := by
  cases hctl : m.ctl with
  | dispatch rest init =>
    obtain ⟨id, hid, hok⟩ := running_ctl hs (by rw [hctl]; simp)
    rw [hctl] at hok
    exact dispatchStep_at hs hctl hid hok.1 hok.2.1 rfl hok.2.2 h
  | _ =>
    simp only [Machine.dispatchStep, hctl] at h
    cases h

/-! ## New tasks and the first dispatch -/

theorem newFrame_reverse {ctx : Context} (hgpr : ctx.gpr = fun _ => 0) :
    (newFrame ctx).reverse = ctx.frame := by
  rw [Context.frame, hgpr]
  rfl

theorem spawn_inv {p : Platform} {m m' : Machine} {ctx : Context} {ctl : Ctl} {process : Process}
    (hs : MachineInv p m) (hgpr : ctx.gpr = fun _ => 0)
    (hctl : ctl = .kernel ∧ ring3 ctx.cs = false ∨ ctl = .user ∧ ctx.cs = 0x2b ∧ ctx.ss = 0x23)
    (h : m.spawn p ctx ctl process = some m') : MachineInv p m' := by
  obtain ⟨hclear, h⟩ := Option.ite_none_right_eq_some.mp h
  obtain ⟨⟨sp, mem⟩, hpush, rfl⟩ := Option.map_eq_some_iff.mp h
  obtain ⟨hsp, hframe, hsame, -⟩ := pushWords_spec hpush
  have hsp' : sp + 160 = stackTop m.nextId := hsp
  rw [newFrame_reverse hgpr] at hframe
  have hnew : m.nextId ∉ m.kernel.liveIds := fun hin =>
    absurd (hs.fresh _ hin) (Nat.lt_irrefl _)
  have hperm := SchedulerLemmas.liveIds_addTask
    ⟨m.nextId, sp, stackTop m.nextId, process, .ready⟩ m.kernel
  -- only the new stack has been written
  have hforeign : ∀ id, id ≠ m.nextId → p.clear id = true → ∀ ctl' a,
      onStack id a = true ∨ stackOf p (some id) ctl' a = true → mem a = m.core.mem a := by
    intro id hne hcl ctl' a ha
    refine hsame a fun i hi heq => ?_
    have hown : stackOf p (some m.nextId) .kernel a = true := heq ▸ onStack_frame hsp' hi
    have hapart := stackOf_apart ctl' (fun hc => hne (Option.some.inj hc).symm)
      (fun j hj => Option.some.inj hj ▸ hclear) hcl (fun hb _ => absurd hb (by decide)) hown
    rcases ha with ha | ha
    · rw [hapart.1] at ha
      cases ha
    · rw [hapart.2] at ha
      cases ha
  have hkept : ∀ id ∈ m.kernel.liveIds, id ≠ m.nextId := fun id hid heq => hnew (heq ▸ hid)
  have hboot : ctl.onBootStack = false := by rcases hctl with ⟨rfl, -⟩ | ⟨rfl, -⟩ <;> rfl
  constructor
  case nodup => exact hperm.nodup_iff.mpr (List.nodup_cons.mpr ⟨hnew, hs.nodup⟩)
  case fresh =>
    intro id hid
    rcases List.mem_cons.mp (hperm.mem_iff.mp hid) with rfl | hid
    · exact Nat.lt_succ_self _
    · exact Nat.lt_succ_of_lt (hs.fresh id hid)
  case clear =>
    intro id hid
    rcases List.mem_cons.mp (hperm.mem_iff.mp hid) with rfl | hid
    · exact hclear
    · exact hs.clear id hid
  case tops =>
    intro t ht
    rcases List.mem_append.mp ht with ht | ht
    · rcases List.mem_append.mp ht with ht | ht
      · exact hs.tops t (List.mem_append_left _ ht)
      · rw [List.mem_singleton.mp ht]
    · exact hs.tops t (List.mem_append_right _ ht)
  case hw => exact hs.hw
  case queued =>
    intro t ht
    rcases List.mem_append.mp ht with ht | ht
    · obtain ⟨ctx', ctl', hsaved, hok, hfirst⟩ := hs.queued t ht
      have hne := hkept t.id (queued_live ht)
      refine ⟨ctx', ctl', (Function.update_of_ne hne _ _).trans hsaved, ?_, hfirst⟩
      exact savedOk_of_foreign hok
        (hforeign t.id hne (hs.clear _ (queued_live ht)) ctl')
    · rw [List.mem_singleton.mp ht]
      refine ⟨ctx, ctl, Function.update_self .., ⟨hframe, fun i hi => ?_, ?_⟩, ?_⟩
      · rw [stackOf, hboot]
        exact onStack_frame hsp' hi
      · rcases hctl with ⟨rfl, hring⟩ | ⟨rfl, hsel⟩
        · exact hring
        · exact hsel
      · exact fun hb => absurd hb (by rw [hboot]; decide)
  case running =>
    intro id hid
    refine ctlOk_of_foreign (hs.running id hid) fun a ha => ?_
    exact hforeign id (hkept id (current_live hid)) (hs.clear id (current_live hid)) .kernel a
      (.inl ha)
  case idle => exact hs.idle
  case boot_ring => exact hs.boot_ring
  case on_boot_stack => exact hs.on_boot_stack
  case booting =>
    intro hb t ht
    rcases List.mem_append.mp ht with ht | ht
    · obtain ⟨hptr, ctx', ctl', hsaved, hkind⟩ := hs.booting hb t ht
      exact ⟨hptr, ctx', ctl',
        (Function.update_of_ne (hkept t.id (queued_live ht)) _ _).trans hsaved, hkind⟩
    · rw [List.mem_singleton.mp ht]
      exact ⟨hsp', ctx, ctl, Function.update_self .., hctl.imp And.left And.left⟩
  case resumed => exact hs.resumed
  case returned => exact hs.returned

theorem switchTo_stacks (t : Task) (hw : Hardware) :
    (t.switchTo hw).privilegeStack = t.kernelStackTop ∧
      (t.switchTo hw).kernelStackPtr = t.kernelStackTop := by
  unfold Task.switchTo
  dsimp only
  split <;> exact ⟨rfl, rfl⟩

theorem start_inv {p : Platform} {m m' : Machine} (hs : MachineInv p m) (hboot : m.ctl = .boot)
    (h : m.start = some m') : MachineInv p m' := by
  obtain ⟨next, rest, init, ctl, htasks, hsaved, rfl⟩ := start_eq_some h
  have hidle : m.kernel.currentId = none := by
    cases hc : m.kernel.currentId with
    | none => rfl
    | some i =>
      have hok := hs.running i hc
      rw [hboot] at hok
      exact hok.elim
  have hmem : next ∈ m.kernel.sched.tasks := htasks ▸ List.mem_cons_self
  have hrest : ∀ t ∈ rest, t ∈ m.kernel.sched.tasks := fun t ht =>
    htasks ▸ List.mem_cons_of_mem next ht
  have hlive : (runNext next rest m.kernel).liveIds.Perm m.kernel.liveIds := by
    rw [SchedulerLemmas.liveIds_runNext, liveIds_eq m.kernel, hidle, htasks]
    simp only [Option.toList_none, List.append_nil, List.map_cons]
    exact List.perm_append_comm
  obtain ⟨hptr, ctx', ctl', hsaved', hkind⟩ := hs.booting hboot next hmem
  obtain ⟨ctx'', ctl'', hsaved'', hok, -⟩ := hs.queued next hmem
  rw [hsaved] at hsaved' hsaved''
  cases hsaved'
  cases hsaved''
  constructor
  case nodup => exact hlive.nodup_iff.mpr hs.nodup
  case fresh => exact fun i hi => hs.fresh i (hlive.mem_iff.mp hi)
  case clear => exact fun i hi => hs.clear i (hlive.mem_iff.mp hi)
  case tops =>
    intro t ht
    rcases List.mem_append.mp ht with ht | ht
    · exact hs.tops t (List.mem_append_left _ (hrest t ht))
    · rw [List.mem_singleton.mp ht]
      exact hs.tops next (List.mem_append_left _ hmem)
  case hw =>
    rintro i ⟨⟩
    have htop := hs.tops next (List.mem_append_left _ hmem)
    obtain ⟨hps, hks⟩ := switchTo_stacks next m.kernel.hw
    exact ⟨hps.trans htop, hks.trans htop⟩
  case queued =>
    intro t ht
    obtain ⟨ctx₁, ctl₁, hs₁, hok₁, -⟩ := hs.queued t (hrest t ht)
    obtain ⟨-, ctx₂, ctl₂, hs₂, hkind₂⟩ := hs.booting hboot t (hrest t ht)
    rw [hs₁] at hs₂
    cases hs₂
    refine ⟨ctx₁, ctl₁, hs₁, hok₁, fun hb => ?_⟩
    rcases hkind₂ with rfl | rfl <;> cases hb
  case running =>
    rintro i ⟨⟩
    have hbase : next.stackPtr = stackTop next.id - 160 := by omega
    refine ⟨hs.boot_ring hboot, fun hring => ?_, ?_⟩
    · rcases hkind with rfl | rfl
      · exact absurd hring (by rw [hok.goes_on]; decide)
      · exact hok.goes_on
    · rw [← hbase]
      exact .start hok.frame
  case idle => rintro ⟨⟩
  case boot_ring => rintro ⟨⟩
  case on_boot_stack => exact fun _ => rfl
  case booting => rintro ⟨⟩
  case resumed => exact hs.resumed
  case returned => exact hs.returned

/-! ## Ticks -/

/-- The state at the point where `timer_tick` returns `nextStack`: the interrupted context is in a
frame at `sp`. -/
structure AtTick (p : Platform) (m : Machine) (c : Core) (sp nextStack : Nat) : Prop where
  frame : WordsAt c.mem sp m.core.cpu.toContext.frame
  home : ∀ i, i < 20 → (m.env p).writable (sp + 8 * i) = true
  below : OnlyBelow (m.env p).writable (interruptTop m.kernel.hw.privilegeStack m.core.cpu)
    m.core.mem c.mem
  rax : c.cpu.gpr .rax = nextStack
  gsBase : c.cpu.gsBase = (swapIf (ring3 m.core.cpu.cs) m.core.cpu).gsBase
  kernelGsBase : c.cpu.kernelGsBase = (swapIf (ring3 m.core.cpu.cs) m.core.cpu).kernelGsBase

theorem tick_eq_some {p : Platform} {m m' : Machine} {stub : List Instr} {lockFree : Bool}
    {scratch : Scratch} (hstub : stub = timerInterruptEntry ∨ stub = yieldInterruptEntry)
    (h : m.tick p stub lockFree scratch = some m') :
    ∃ c c' sp kernel nextStack, AtTick p m c sp nextStack ∧
      timerTick lockFree sp m.kernel = .ret kernel nextStack ∧
      exec (m.env p) 0 interruptRestore c = some c' ∧
      m' = { m with core := c', kernel := kernel, saved := m.suspended : Machine }.goOn := by
  unfold Machine.tick at h
  obtain ⟨c₁, hint, h⟩ := Option.bind_eq_some_iff.mp h
  obtain ⟨c₂, hstubExec, h⟩ := Option.bind_eq_some_iff.mp h
  obtain ⟨c₃, hcall, h⟩ := Option.bind_eq_some_iff.mp h
  have hent : Entered (m.env p) m.kernel.hw.privilegeStack m.core c₂ := by
    rcases hstub with rfl | rfl
    · exact entered_timer hint hstubExec
    · exact entered_yield hint hstubExec
  obtain ⟨mem, hmem, rfl⟩ := call_eq_some hcall
  split at h
  · cases h
  · next kernel nextStack htick =>
    obtain ⟨c', hexec, h⟩ := Option.bind_eq_some_iff.mp h
    refine ⟨_, c', c₂.cpu.rsp, kernel, nextStack, ?_, hent.rdi ▸ htick, hexec,
      (Option.some.inj h).symm⟩
    constructor
    case frame => exact hent.frame.congr fun i _ => hmem.eq_of_le (by omega)
    case home => exact hent.writable
    case below => exact hent.below.trans hmem hent.depth
    case rax => exact Cpu.setReg_self _ _ _
    case gsBase => exact hent.gsBase
    case kernelGsBase => exact hent.kernelGsBase

theorem goOn_eq {m : Machine} {id : TaskId} {ctx : Context} {ctl : Ctl}
    (hid : m.kernel.currentId = some id) (hsaved : m.saved id = some (ctx, ctl)) :
    m.goOn = { m with ctl := ctl, resumed := ⟨id, ctx, m.core.cpu.toContext⟩ :: m.resumed } := by
  simp only [Machine.goOn, hid, hsaved]

theorem suspended_of_current {m : Machine} {id : TaskId} (h : m.kernel.currentId = some id) :
    m.suspended = Function.update m.saved id (some (m.core.cpu.toContext, m.ctl)) := by
  simp only [Machine.suspended, h]

/-- The tick returns to the code that it interrupted. -/
theorem tick_stay_inv {p : Platform} {m : Machine} {c c' : Core} {sp : Nat} {kernel : Kernel}
    (hs : MachineInv p m) (hat : AtTick p m c sp sp)
    (htasks : kernel.sched.tasks = m.kernel.sched.tasks)
    (hcur : kernel.currentId = m.kernel.currentId) (hhw : kernel.hw = m.kernel.hw)
    (htop : ∀ t, kernel.sched.currentTask = some t → t.kernelStackTop = stackTop t.id)
    (hexec : exec (m.env p) 0 interruptRestore c = some c') :
    MachineInv p { m with core := c', kernel := kernel, saved := m.suspended : Machine }.goOn := by
  have hframe : WordsAt c.mem (c.cpu.gpr .rax) m.core.cpu.toContext.frame := hat.rax ▸ hat.frame
  rw [exec_interruptRestore hframe] at hexec
  cases hexec
  have hmem : ∀ a, c.mem a = m.core.mem a ∨ stackOf p m.kernel.currentId m.ctl a = true :=
    fun a => (hat.below a).imp_right And.left
  cases hid : m.kernel.currentId with
  | none =>
    -- nothing has been scheduled yet
    have hsusp : m.suspended = m.saved := by simp only [Machine.suspended, hid]
    have hgo : ∀ m₁ : Machine, m₁.kernel.currentId = none → m₁.goOn = m₁ := by
      intro m₁ h₁
      simp only [Machine.goOn, h₁]
    rw [hgo _ (hcur.trans hid), hsusp]
    refine inv_of_own hs htasks hcur hhw htop rfl rfl (fun _ _ => rfl) hmem (fun id h => ?_)
      Iff.rfl (fun _ => rfl) (fun hb => hb) hs.resumed hs.returned
    rw [hid] at h
    cases h
  | some id =>
    have hsaved : m.suspended id = some (m.core.cpu.toContext, m.ctl) := by
      rw [suspended_of_current hid, Function.update_self]
    rw [goOn_eq (hcur.trans hid) hsaved]
    refine inv_of_own hs htasks hcur hhw htop rfl rfl (fun t ht => ?_) hmem (fun id' hid' => ?_)
      Iff.rfl (fun _ => rfl) (fun hb => hb) (fun r hr => ?_) hs.returned
    · show m.suspended t.id = m.saved t.id
      rw [suspended_of_current hid, Function.update_of_ne]
      intro heq
      exact current_ne_queued hs ht (heq ▸ hid)
    · have hbelow : OnlyBelow (stackOf p (some id') m.ctl)
          (interruptTop m.kernel.hw.privilegeStack m.core.cpu) m.core.mem c.mem :=
        env_writable hid' ▸ hat.below
      exact ctlOk_of_pushes (hs.running id' hid') (hs.clear id' (current_live hid')) hbelow
    · rcases List.mem_cons.mp hr with rfl | hr
      · rfl
      · exact hs.resumed r hr

/-- The queue after a switch. -/
theorem mem_switched {prev t : Task} {rest : List Task} {sp : Nat}
    (h : t ∈ (if prev.state = .running then
      rest ++ [{ prev with stackPtr := sp, state := .ready }] else rest)) :
    t ∈ rest ∨ t = { prev with stackPtr := sp, state := .ready } := by
  split at h
  · rcases List.mem_append.mp h with h | h
    · exact .inl h
    · exact .inr (List.mem_singleton.mp h)
  · exact .inl h

theorem liveIds_switched {k : Kernel} (k' : Kernel) {prev next : Task} {rest : List Task} (sp : Nat)
    (hc : k.sched.currentTask = some prev) (ht : k.sched.tasks = next :: rest) :
    ∃ dropped, ((runNext next (if prev.state = .running then
      rest ++ [{ prev with stackPtr := sp, state := .ready }] else rest) k').liveIds ++
        dropped).Perm k.liveIds := by
  split
  · exact ⟨[], by rw [List.append_nil]; exact SchedulerLemmas.switch_live k' sp hc ht⟩
  · refine ⟨[prev.id], ?_⟩
    rw [SchedulerLemmas.liveIds_runNext, SchedulerLemmas.liveIds_of_current hc, ht]
    exact List.perm_append_comm.append_right _

/-- The tick switches to the first task of the queue. -/
theorem tick_switch_inv {p : Platform} {m : Machine} {c c' : Core} {sp ticks : Nat}
    {prev next : Task} {rest : List Task} (hs : MachineInv p m)
    (hat : AtTick p m c sp next.stackPtr) (hc : m.kernel.sched.currentTask = some prev)
    (ht : m.kernel.sched.tasks = next :: rest)
    (hexec : exec (m.env p) 0 interruptRestore c = some c') :
    MachineInv p { m with
      core := c'
      kernel := runNext next (if prev.state = .running then
        rest ++ [{ prev with stackPtr := sp, state := .ready }] else rest)
        { m.kernel with uptimeTicks := ticks }
      saved := m.suspended : Machine }.goOn := by
  have hid : m.kernel.currentId = some prev.id := by rw [Kernel.currentId, hc]; rfl
  have hnext : next ∈ m.kernel.sched.tasks := ht ▸ List.mem_cons_self
  have hrest : ∀ t ∈ rest, t ∈ m.kernel.sched.tasks := fun t h => ht ▸ List.mem_cons_of_mem next h
  have hne : ∀ t ∈ m.kernel.sched.tasks, t.id ≠ prev.id := fun t h heq =>
    current_ne_queued hs h (heq ▸ hid)
  have hmem : ∀ a, c.mem a = m.core.mem a ∨ stackOf p m.kernel.currentId m.ctl a = true :=
    fun a => (hat.below a).imp_right And.left
  have hkept : ∀ t ∈ m.kernel.sched.tasks, m.suspended t.id = m.saved t.id := by
    intro t h
    rw [suspended_of_current hid, Function.update_of_ne (hne t h)]
  -- the next task's frame is where it was left
  obtain ⟨ctx, ctl, hsaved, hok, hfirst⟩ := hs.queued next hnext
  have hok' := saved_of_own hs hmem hnext hok hfirst
  have hframe : WordsAt c.mem (c.cpu.gpr .rax) ctx.frame := hat.rax ▸ hok'.frame
  rw [exec_interruptRestore hframe] at hexec
  cases hexec
  rw [goOn_eq (m := { m with
    core := _
    kernel := runNext next _ _
    saved := m.suspended }) rfl ((hkept next hnext).trans hsaved)]
  obtain ⟨dropped, hlive⟩ := liveIds_switched { m.kernel with uptimeTicks := ticks } sp hc ht
  have hsub : ∀ i, i ∈ (runNext next (if prev.state = .running then
      rest ++ [{ prev with stackPtr := sp, state := .ready }] else rest)
      { m.kernel with uptimeTicks := ticks }).liveIds → i ∈ m.kernel.liveIds := fun i hi =>
    hlive.mem_iff.mp (List.mem_append_left _ hi)
  constructor
  case nodup => exact (List.nodup_append.mp (hlive.nodup_iff.mpr hs.nodup)).1
  case fresh => exact fun i hi => hs.fresh i (hsub i hi)
  case clear => exact fun i hi => hs.clear i (hsub i hi)
  case tops =>
    intro t h
    rcases List.mem_append.mp h with h | h
    · rcases mem_switched h with h | rfl
      · exact hs.tops t (List.mem_append_left _ (hrest t h))
      · show prev.kernelStackTop = stackTop prev.id
        exact current_top hs hc
    · rw [List.mem_singleton.mp h]
      exact hs.tops next (List.mem_append_left _ hnext)
  case hw =>
    rintro i ⟨⟩
    have htop := hs.tops next (List.mem_append_left _ hnext)
    obtain ⟨hps, hks⟩ := switchTo_stacks next m.kernel.hw
    exact ⟨hps.trans htop, hks.trans htop⟩
  case queued =>
    intro t h
    rcases mem_switched h with h | rfl
    · obtain ⟨ctx₁, ctl₁, hs₁, hok₁, hf₁⟩ := hs.queued t (hrest t h)
      exact ⟨ctx₁, ctl₁, (hkept t (hrest t h)).trans hs₁,
        saved_of_own hs hmem (hrest t h) hok₁ hf₁, hf₁⟩
    · refine ⟨m.core.cpu.toContext, m.ctl, ?_, ⟨hat.frame, env_writable hid ▸ hat.home, ?_⟩,
        fun hb => (hs.on_boot_stack hb).trans hid⟩
      · show m.suspended prev.id = _
        rw [suspended_of_current hid, Function.update_self]
      · exact ctlOk_of_pushes (hs.running _ hid) (hs.clear _ (current_live hid))
          (env_writable hid ▸ hat.below)
  case running =>
    rintro i ⟨⟩
    exact hok'.goes_on
  case idle => rintro ⟨⟩
  case boot_ring =>
    rintro rfl
    exact hok'.goes_on.elim
  case on_boot_stack => exact fun hb => hfirst hb
  case booting =>
    rintro rfl
    exact hok'.goes_on.elim
  case resumed =>
    intro r hr
    rcases List.mem_cons.mp hr with rfl | hr
    · rfl
    · exact hs.resumed r hr
  case returned => exact hs.returned

theorem tick_inv {p : Platform} {m m' : Machine} {stub : List Instr} {lockFree : Bool}
    {scratch : Scratch} (hs : MachineInv p m)
    (hstub : stub = timerInterruptEntry ∨ stub = yieldInterruptEntry)
    (h : m.tick p stub lockFree scratch = some m') : MachineInv p m' := by
  obtain ⟨c, c', sp, kernel, nextStack, hat, htick, hexec, rfl⟩ := tick_eq_some hstub h
  rcases timerTick_cases htick with ⟨rfl, rfl, -⟩ | ⟨prev, next, rest, -, hc, ht, rfl, rfl⟩ |
    ⟨prev, -, hc, ht, -, rfl, rfl⟩
  · exact tick_stay_inv hs hat rfl rfl rfl (fun t ht => current_top hs ht) hexec
  · exact tick_switch_inv hs hat hc ht hexec
  · refine tick_stay_inv hs hat rfl ?_ rfl ?_ hexec
    · rw [Kernel.currentId, Kernel.currentId, hc]
      rfl
    · rintro t ⟨⟩
      show prev.kernelStackTop = stackTop prev.id
      exact current_top hs hc

/-! ## Runs -/

theorem newTask_inv {p : Platform} {m m' : Machine} {entry : Nat} {process : Process}
    (hs : MachineInv p m) (h : m.newTask p entry process = some m') : MachineInv p m' := by
  refine spawn_inv hs ?_ ?_ h
  · rfl
  · exact .inl ⟨rfl, ring3_kernel⟩

theorem newUser_inv {p : Platform} {m m' : Machine} {process : Process}
    (hs : MachineInv p m) (h : m.newUser p process = some m') : MachineInv p m' := by
  refine spawn_inv hs ?_ ?_ h
  · rfl
  · exact .inr ⟨rfl, rfl, rfl⟩

/-- The step lemma. -/
theorem machineStep_inv (p : Platform) (m : Machine) (e : MachineEvent) (m' : Machine)
    (hs : MachineInv p m) (h : machineStep p m e = some m') : MachineInv p m' := by
  cases e with
  | newTask entry process =>
    simp only [machineStep] at h
    split at h
    · exact newTask_inv hs h
    · exact newTask_inv hs h
    · cases h
  | newUser process =>
    simp only [machineStep] at h
    split at h
    · exact newUser_inv hs h
    · exact newUser_inv hs h
    · cases h
  | start =>
    simp only [machineStep] at h
    split at h
    · next hboot => exact start_inv hs hboot h
    · cases h
  | dispatchStep => exact dispatchStep_inv hs h
  | timer lockFree scratch =>
    exact tick_inv hs (.inl rfl) (Option.ite_none_right_eq_some.mp h).2
  | yield lockFree scratch =>
    exact tick_inv hs (.inr rfl) (Option.ite_none_right_eq_some.mp h).2
  | runKernel regs writes => exact runKernel_inv hs h
  | runUser regs => exact runUser_inv hs h
  | syscallEnter => exact syscallEnter_inv hs h
  | syscallReturn scratch result => exact syscallReturn_inv hs h
  | exit => exact exit_inv hs h
  | keyboard writes => exact keyboard_inv hs (Option.ite_none_right_eq_some.mp h).2
  | fault errorCode => exact fault_inv hs h

theorem init_inv (p : Platform) (ctx : Context) (mem : Nat → Nat) (hw : Hardware) :
    MachineInv p (Machine.init p ctx mem hw) := by
  have hlive : (Machine.init p ctx mem hw).kernel.liveIds = [] := rfl
  have htasks : (Machine.init p ctx mem hw).kernel.liveTasks = [] := rfl
  constructor
  case nodup => exact hlive ▸ List.nodup_nil
  case fresh => exact fun id h => nomatch (hlive ▸ h : id ∈ [])
  case clear => exact fun id h => nomatch (hlive ▸ h : id ∈ [])
  case tops => exact fun t h => nomatch (htasks ▸ h : t ∈ [])
  case hw => rintro id ⟨⟩
  case queued => exact fun t h => nomatch h
  case running => rintro id ⟨⟩
  case idle => exact fun _ => rfl
  case boot_ring => exact fun _ => ring3_kernel
  case on_boot_stack => exact fun _ => rfl
  case booting => exact fun _ t h => nomatch h
  case resumed => exact fun r h => nomatch h
  case returned => exact fun r h => nomatch h

end MachineLemmas

open MachineLemmas

/-- A platform with the boot stack in the lower half. -/
def samplePlatform : Platform := ⟨0x4444_0000, 0x10_0000, 0x11_0000⟩

/-- The context at the end of `kernel_main`. -/
def sampleContext : Context := ⟨fun _ => 7, 0x20_0000, 0x08, 0x202, 0x10_8000, 0x10⟩

/-- Registers of a program that has run. -/
def sampleRegs : RunRegs := ⟨fun _ => 5, 0x40_0010, 0x206, 0x7FFF_0000⟩

/-- What a called function leaves in the registers. -/
def sampleScratch : Scratch := ⟨fun _ => 9, []⟩

/-- A user program and a kernel task: the program enters the kernel, is switched away in the middle
of its call, and returns when the kernel task has yielded. -/
def sampleEvents : List MachineEvent :=
  [.newUser ⟨0x1000, 0x40_0000, 0x7FFF_F000⟩, .newTask 0x50_0000 ⟨0, 0, 0⟩, .start] ++
    List.replicate 20 .dispatchStep ++
    [.runUser sampleRegs, .syscallEnter, .yield true sampleScratch, .timer true sampleScratch,
      .syscallReturn sampleScratch 3]

end Turnix
