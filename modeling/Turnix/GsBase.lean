import Turnix.ContextIntegrity

/-!
# The GS bases

The discipline that `gdt::init` sets up: in the kernel GS points to `PER_CPU`, and every transition to
or from ring 3 executes `swapgs`, so that in ring 3 GS is the user's base, zero, and the other base is
that of the kernel.

Two places of the kernel do not keep to it.
* `page_fault_handler` and `gpf_handler` are entered from ring 3 without a `swapgs` and leave by
  `exit_current_task`. The tick that follows comes from ring 0, so it does not swap either, but on the
  way to the next program it does (`fault_breaks_gs`).
* The block in `start_scheduling` runs with interrupts enabled. A timer interrupt between its `swapgs`
  and its `iretq` comes from ring 0 with the bases already swapped (`timer_before_iretq_breaks_gs`).

In a run without these two the discipline holds in every state (`gs_discipline`).
-/

namespace Turnix

open Lib

/-! ## The discipline -/

/-- The two bases. -/
def Cpu.bases (cpu : Cpu) : Nat × Nat := (cpu.gsBase, cpu.kernelGsBase)

/-- The bases in ring 3, and in the kernel. -/
def Platform.bases (p : Platform) (user : Bool) : Nat × Nat :=
  if user then (0, p.perCpu) else (p.perCpu, 0)

/-- What the code relies on: the user's base in ring 3, and `PER_CPU` under each access to memory
through GS in `syscall_entry`. -/
structure GsDiscipline (p : Platform) (m : Machine) : Prop where
  in_ring3 : ring3 m.core.cpu.cs = true →
    m.core.cpu.gsBase = 0 ∧ m.core.cpu.kernelGsBase = p.perCpu
  at_access : m.ctl = .user → ∀ before i behind, syscallEntry = before ++ i :: behind →
    i.usesGs = true → ∀ c, exec (m.env p) 0 before m.core.syscall = some c →
      c.cpu.gsBase = p.perCpu

/-- The CPU is in the block of `start_scheduling`, behind its `swapgs`. -/
def Ctl.leaving : Ctl → Bool
  | dispatch [.iretq] init => ring3 init.cs
  | _ => false

/-- The steps that keep the discipline: no program faults, and no timer interrupt comes between
`swapgs` and `iretq` in `start_scheduling`. -/
def GsSafe (m : Machine) : MachineEvent → Prop
  | .fault _ => False
  | .timer _ _ => m.ctl.leaving = false
  | _ => True

instance (m : Machine) (e : MachineEvent) : Decidable (GsSafe m e) := by
  cases e <;> unfold GsSafe <;> infer_instance

/-- The bases are those of the code that the CPU executes, and no task has been switched away behind
the `swapgs` of `start_scheduling`. -/
structure GsInv (p : Platform) (m : Machine) : Prop where
  bases : m.core.cpu.bases = p.bases (ring3 m.core.cpu.cs || m.ctl.leaving)
  queued : ∀ t ∈ m.kernel.sched.tasks, ∀ ctx ctl, m.saved t.id = some (ctx, ctl) →
    ctl.leaving = false

namespace GsLemmas

open CpuLemmas EntryLemmas MachineLemmas

/-! ## Instructions -/

theorem step_bases {env : Env} {i : Instr} {c c' : Core} (hi : i ≠ .swapgs)
    (h : i.step env c = some c') : c'.cpu.bases = c.cpu.bases := by
  have hpush : ∀ ws, c.pushAll env ws = some c' → c'.cpu.bases = c.cpu.bases := by
    intro ws hws
    obtain ⟨sp, mem, rfl, -⟩ := pushAll_eq_some hws
    rfl
  cases i with
  | push r => exact hpush _ h
  | pushImm v => exact hpush _ h
  | pushGs off =>
    obtain ⟨v, -, h⟩ := Option.bind_eq_some_iff.mp h
    exact hpush _ h
  | movGsRsp off =>
    obtain ⟨-, h⟩ := Option.ite_none_right_eq_some.mp h
    cases h
    rfl
  | movRspGs off =>
    obtain ⟨v, -, rfl⟩ := Option.map_eq_some_iff.mp h
    rfl
  | storeRax off =>
    obtain ⟨-, h⟩ := Option.ite_none_right_eq_some.mp h
    cases h
    rfl
  | swapgs => exact absurd rfl hi
  | _ =>
    cases h
    rfl

/-- Only `swapgs` changes the bases. -/
theorem exec_bases {env : Env} : ∀ {n : Nat} {code : List Instr} {c c' : Core},
    Instr.swapgs ∉ code → exec env n code c = some c' → c'.cpu.bases = c.cpu.bases
  | n, [], c, c', _, h => by
    unfold exec at h
    cases h
    rfl
  | n + 1, i :: code, c, c', hno, h => by
    unfold exec at h
    exact exec_bases (fun hin => hno (List.mem_cons_of_mem i hin)) h
  | 0, i :: code, c, c', hno, h => by
    have hno' : Instr.swapgs ∉ code := fun hin => hno (List.mem_cons_of_mem i hin)
    by_cases hjz : ∃ n, i = .jz n
    · obtain ⟨n, rfl⟩ := hjz
      rw [exec_jz] at h
      exact exec_bases hno' h
    · rw [exec_cons fun n heq => hjz ⟨n, heq⟩] at h
      obtain ⟨c₁, hstep, h⟩ := Option.bind_eq_some_iff.mp h
      have hi : i ≠ .swapgs := by
        rintro rfl
        exact hno List.mem_cons_self
      exact (exec_bases hno' h).trans (step_bases hi hstep)

/-- Whatever memory holds, it is a frame of some context. -/
theorem exists_frame (mem : Nat → Nat) (sp : Nat) : ∃ ctx : Context, WordsAt mem sp ctx.frame := by
  refine ⟨⟨fun r => mem (sp + 8 * savedRegs.reverse.idxOf r), mem (sp + 120), mem (sp + 128),
    mem (sp + 136), mem (sp + 144), mem (sp + 152)⟩, ?_⟩
  repeat refine wordsAt_cons.mpr ⟨rfl, ?_⟩
  exact wordsAt_nil _ _

/-- The restoring half of the stubs decides about `swapgs` by the selector that it loads. -/
theorem exec_restore_bases {env : Env} {c c' : Core}
    (h : exec env 0 interruptRestore c = some c') :
    c'.cpu.bases = (swapIf (ring3 c'.cpu.cs) c.cpu).bases := by
  obtain ⟨ctx, hframe⟩ := exists_frame c.mem (c.cpu.gpr .rax)
  rw [exec_interruptRestore hframe] at h
  cases h
  rfl

theorem swapIf_to_kernel {p : Platform} {cpu : Cpu} {user : Bool} (h : cpu.bases = p.bases user) :
    (swapIf user cpu).bases = p.bases false := by
  obtain ⟨hgs, hkgs⟩ := Prod.mk.inj h
  cases user with
  | true => exact Prod.ext hkgs hgs
  | false => exact h

theorem swapIf_from_kernel {p : Platform} {cpu : Cpu} (user : Bool)
    (h : cpu.bases = p.bases false) : (swapIf user cpu).bases = p.bases user := by
  obtain ⟨hgs, hkgs⟩ := Prod.mk.inj h
  cases user with
  | true => exact Prod.ext hkgs hgs
  | false => exact h

/-! ## Steps -/

/-- The frame rule: a step that leaves the queue alone. -/
theorem gs_of_own {p : Platform} {m m' : Machine} (hg : GsInv p m)
    (htasks : m'.kernel.sched.tasks = m.kernel.sched.tasks) (hsaved : m'.saved = m.saved)
    (hbases : m'.core.cpu.bases = p.bases (ring3 m'.core.cpu.cs || m'.ctl.leaving)) :
    GsInv p m' := by
  refine ⟨hbases, fun t ht ctx ctl h => ?_⟩
  rw [htasks] at ht
  rw [hsaved] at h
  exact hg.queued t ht ctx ctl h

/-- Ring 3 is where user programs run. -/
theorem ring3_iff {p : Platform} {m : Machine} (hs : MachineInv p m) :
    ring3 m.core.cpu.cs = true ↔ m.ctl = .user := by
  by_cases hboot : m.ctl = .boot
  · rw [hs.boot_ring hboot, hboot]
    exact ⟨nofun, nofun⟩
  · obtain ⟨id, -, hok⟩ := running_ctl hs hboot
    cases hctl : m.ctl <;> rw [hctl] at hok
    case boot => exact hok.elim
    case user => exact ⟨fun _ => rfl, fun _ => hok.1 ▸ by decide⟩
    case kernel =>
      rw [show ring3 m.core.cpu.cs = false from hok]
      exact ⟨nofun, nofun⟩
    case exiting =>
      rw [show ring3 m.core.cpu.cs = false from hok]
      exact ⟨nofun, nofun⟩
    case syscall entered frame =>
      rw [hok.1]
      exact ⟨nofun, nofun⟩
    case dispatch rest init =>
      rw [hok.1]
      exact ⟨nofun, nofun⟩

theorem ring3_eq_false {p : Platform} {m : Machine} (hs : MachineInv p m) (h : m.ctl ≠ .user) :
    ring3 m.core.cpu.cs = false :=
  Bool.eq_false_iff.mpr fun hr => h ((ring3_iff hs).mp hr)

theorem bases_in_user {p : Platform} {m : Machine} (hs : MachineInv p m) (hg : GsInv p m)
    (h : m.ctl = .user) : m.core.cpu.bases = p.bases true := by
  have hb := hg.bases
  rwa [(ring3_iff hs).mpr h, Bool.true_or] at hb

theorem spawn_gs {p : Platform} {m m' : Machine} {ctx : Context} {ctl : Ctl} {process : Process}
    (hs : MachineInv p m) (hg : GsInv p m) (hctl : ctl.leaving = false)
    (h : m.spawn p ctx ctl process = some m') : GsInv p m' := by
  obtain ⟨-, h⟩ := Option.ite_none_right_eq_some.mp h
  obtain ⟨⟨sp, mem⟩, -, rfl⟩ := Option.map_eq_some_iff.mp h
  refine ⟨hg.bases, fun t ht ctx' ctl' hsaved => ?_⟩
  rcases List.mem_append.mp ht with ht | ht
  · have hne : t.id ≠ m.nextId := Nat.ne_of_lt (hs.fresh t.id (queued_live ht))
    exact hg.queued t ht ctx' ctl' ((Function.update_of_ne hne _ _).symm.trans hsaved)
  · rw [List.mem_singleton.mp ht] at hsaved
    have heq := (Function.update_self m.nextId (some (ctx, ctl)) m.saved).symm.trans hsaved
    cases heq
    exact hctl

theorem start_gs {p : Platform} {m m' : Machine} (hg : GsInv p m)
    (hboot : m.ctl = .boot) (h : m.start = some m') : GsInv p m' := by
  obtain ⟨next, rest, init, ctl, htasks, -, rfl⟩ := start_eq_some h
  have hbases := hg.bases
  rw [hboot] at hbases
  exact ⟨hbases, fun t ht => hg.queued t (htasks ▸ List.mem_cons_of_mem next ht)⟩

/-- A step of the block, by the place in it. -/
theorem dispatchStep_at_gs {p : Platform} {m m' : Machine} {id : TaskId} {base : Nat} {init : Context}
    {rest : List Instr} (hg : GsInv p m) (hctl : m.ctl = .dispatch rest init)
    (hid : m.kernel.currentId = some id) (hring : ring3 m.core.cpu.cs = false)
    (hat : DispatchAt m.core.mem base init m.core.cpu.toContext rest)
    (h : m.dispatchStep p = some m') : GsInv p m' := by
  have hbases := hg.bases
  rw [hctl, hring, Bool.false_or] at hbases
  -- in all states of the block but the last, the bases are those of the kernel
  have stay : ∀ c rest', m' = { m with core := c, ctl := .dispatch rest' init } →
      c.cpu.cs = m.core.cpu.cs → c.cpu.bases = p.bases (Ctl.dispatch rest' init).leaving →
      GsInv p m' := by
    rintro c rest' rfl hcs hb
    refine gs_of_own hg rfl rfl ?_
    show c.cpu.bases = p.bases (ring3 c.cpu.cs || _)
    rw [hcs, hring, Bool.false_or]
    exact hb
  cases hat with
  | start hframe =>
    rw [dispatchStep_start hctl] at h
    cases h
    exact stay _ _ rfl rfl hbases
  | pops done todo hregs hdone hrsp hframe =>
    cases todo with
    | nil =>
      simp only [Machine.dispatchStep, hctl, List.map_nil, List.nil_append, Instr.step] at h
      cases h
      exact stay _ _ rfl rfl hbases
    | cons r todo =>
      simp only [Machine.dispatchStep, hctl, List.map_cons, List.cons_append, Instr.step] at h
      cases h
      refine stay _ _ rfl rfl ?_
      cases todo <;> exact hbases
  | jump hgpr hrsp hframe hzero =>
    simp only [Machine.dispatchStep, hctl] at h
    cases h
    refine stay _ _ rfl rfl ?_
    rw [hzero]
    cases hr : ring3 init.cs with
    | true => exact hbases
    | false =>
      show m.core.cpu.bases = p.bases (ring3 init.cs)
      rw [hr]
      exact hbases
  | swap hgpr hrsp hframe hr =>
    simp only [Machine.dispatchStep, hctl, Instr.step] at h
    cases h
    refine stay _ _ rfl rfl ?_
    show _ = p.bases (ring3 init.cs)
    rw [hr]
    exact swapIf_from_kernel true hbases
  | last hgpr hrsp hframe =>
    simp only [Machine.dispatchStep, hctl, iretq_of_wordsAt init hframe, hid] at h
    cases h
    refine gs_of_own hg rfl rfl ?_
    show m.core.cpu.bases = p.bases (ring3 init.cs || Ctl.leaving (if _ then _ else _))
    have hleft : (if ring3 init.cs = true then Ctl.user else .kernel).leaving = false := by
      split <;> rfl
    rw [hleft, Bool.or_false]
    exact hbases

theorem dispatchStep_gs {p : Platform} {m m' : Machine} (hs : MachineInv p m) (hg : GsInv p m)
    (h : m.dispatchStep p = some m') : GsInv p m' := by
  cases hctl : m.ctl with
  | dispatch rest init =>
    obtain ⟨id, hid, hok⟩ := running_ctl hs (by rw [hctl]; nofun)
    rw [hctl] at hok
    exact dispatchStep_at_gs hg hctl hid hok.1 hok.2.2 h
  | _ =>
    simp only [Machine.dispatchStep, hctl] at h
    cases h

/-- A live task is suspended in front of the `swapgs` of `start_scheduling` or behind its `iretq`. -/
theorem suspended_leaving {p : Platform} {m : Machine} (hg : GsInv p m)
    (hctl : m.ctl.leaving = false) {id : TaskId} (hid : id ∈ m.kernel.liveIds) {ctx : Context}
    {ctl : Ctl} (h : m.suspended id = some (ctx, ctl)) : ctl.leaving = false := by
  by_cases hcur : m.kernel.currentId = some id
  · rw [suspended_of_current hcur, Function.update_self] at h
    cases h
    exact hctl
  · have hsaved : m.saved id = some (ctx, ctl) := by
      cases hc : m.kernel.currentId with
      | none =>
        simp only [Machine.suspended, hc] at h
        exact h
      | some i =>
        have hne : id ≠ i := fun heq => hcur (heq ▸ hc)
        rwa [suspended_of_current hc, Function.update_of_ne hne] at h
    rw [liveIds_eq] at hid
    rcases List.mem_append.mp hid with hid | hid
    · obtain ⟨t, ht, rfl⟩ := List.mem_map.mp hid
      exact hg.queued t ht ctx ctl hsaved
    · exact absurd (Option.mem_toList.mp hid) hcur

theorem timerTick_live {lockFree : Bool} {sp sp' : Nat} {k k' : Kernel}
    (h : timerTick lockFree sp k = .ret k' sp') : ∀ id ∈ k'.liveIds, id ∈ k.liveIds := by
  intro id hid
  rcases timerTick_cases h with ⟨rfl, -⟩ | ⟨prev, next, rest, -, hc, ht, -, rfl⟩ |
    ⟨prev, -, hc, ht, -, -, rfl⟩
  · exact hid
  · obtain ⟨dropped, hperm⟩ := liveIds_switched
      { k with uptimeTicks := (k.uptimeTicks + 1) % 2 ^ 64 } sp hc ht
    exact hperm.mem_iff.mp (List.mem_append_left _ hid)
  · rw [liveIds_eq] at hid ⊢
    rw [Kernel.currentId, hc]
    exact hid

theorem goOn_ctl (m : Machine) : m.goOn.ctl = m.ctl ∨
    ∃ id ctx, m.kernel.currentId = some id ∧ m.saved id = some (ctx, m.goOn.ctl) := by
  unfold Machine.goOn
  split
  · next id hid =>
    split
    · next ctx ctl hsaved => exact .inr ⟨id, ctx, hid, hsaved⟩
    · exact .inl rfl
  · exact .inl rfl

theorem tick_gs {p : Platform} {m m' : Machine} {stub : List Instr} {lockFree : Bool}
    {scratch : Scratch} (hg : GsInv p m) (hctl : m.ctl.leaving = false)
    (hstub : stub = timerInterruptEntry ∨ stub = yieldInterruptEntry)
    (h : m.tick p stub lockFree scratch = some m') : GsInv p m' := by
  obtain ⟨c, c', sp, kernel, nextStack, hat, htick, hexec, rfl⟩ := tick_eq_some hstub h
  have hlive := timerTick_live htick
  have hleft : ∀ id ∈ kernel.liveIds, ∀ ctx ctl, m.suspended id = some (ctx, ctl) →
      ctl.leaving = false := fun id hid ctx ctl => suspended_leaving hg hctl (hlive id hid)
  -- to the kernel's bases on the way in, and on to those of the code that goes on
  have hin : c.cpu.bases = p.bases false := by
    have hb := hg.bases
    rw [hctl, Bool.or_false] at hb
    rw [← swapIf_to_kernel hb]
    exact Prod.ext hat.gsBase hat.kernelGsBase
  have hout : c'.cpu.bases = p.bases (ring3 c'.cpu.cs) := by
    rw [exec_restore_bases hexec]
    exact swapIf_from_kernel _ hin
  obtain ⟨hcore, hkernel, hsaved⟩ := goOn_rest { m with
    core := c', kernel := kernel, saved := m.suspended : Machine }
  constructor
  case bases =>
    have hgo : ({ m with
        core := c', kernel := kernel, saved := m.suspended : Machine }.goOn).ctl.leaving = false := by
      rcases goOn_ctl { m with core := c', kernel := kernel, saved := m.suspended : Machine } with
        heq | ⟨id, ctx, hid, heq⟩
      · rw [heq]
        exact hctl
      · exact hleft id (current_live hid) ctx _ heq
    rw [hgo, Bool.or_false, hcore]
    exact hout
  case queued =>
    rw [hkernel, hsaved]
    exact fun t ht => hleft t.id (queued_live ht)

theorem runKernel_gs {p : Platform} {m m' : Machine} {regs : RunRegs} {writes : List (Nat × Nat)}
    (hg : GsInv p m) (h : m.runKernel p regs writes = some m') : GsInv p m' := by
  obtain ⟨-, -, -, mem, -, rfl⟩ := runKernel_eq_some h
  exact gs_of_own hg rfl rfl hg.bases

theorem runUser_gs {p : Platform} {m m' : Machine} {regs : RunRegs} (hg : GsInv p m)
    (h : m.runUser regs = some m') : GsInv p m' := by
  obtain ⟨-, rfl⟩ := runUser_eq_some h
  exact gs_of_own hg rfl rfl hg.bases

theorem syscallEnter_gs {p : Platform} {m m' : Machine} (hs : MachineInv p m) (hg : GsInv p m)
    (h : m.syscallEnter p = some m') : GsInv p m' := by
  obtain ⟨hctl, c, hexec, rfl⟩ := syscallEnter_eq_some h
  obtain ⟨-, -, -, -, hgs, hkgs, hcs⟩ := exec_syscallEntry hexec
  refine gs_of_own hg rfl rfl ?_
  show c.cpu.bases = p.bases (ring3 c.cpu.cs || false)
  rw [hcs, ring3_kernel, Bool.or_false, ← swapIf_to_kernel (bases_in_user hs hg hctl)]
  exact Prod.ext hgs hkgs

theorem syscallReturn_gs {p : Platform} {m m' : Machine} {scratch : Scratch} {result : Nat}
    (hs : MachineInv p m) (hg : GsInv p m) (h : m.syscallReturn p scratch result = some m') :
    GsInv p m' := by
  have hs' := syscallReturn_inv hs h
  obtain ⟨entered, frame, c₁, c, hctl, hcall, hexec, rfl⟩ := syscallReturn_eq_some h
  obtain ⟨mem, -, rfl⟩ := call_eq_some hcall
  obtain ⟨ctx, hframe⟩ := exists_frame mem frame
  obtain ⟨-, -, hgs, hkgs⟩ := exec_syscallExit hframe hexec
  have hb := hg.bases
  rw [ring3_eq_false hs (by rw [hctl]; nofun), hctl] at hb
  refine gs_of_own hg rfl rfl ?_
  rw [(ring3_iff hs').mpr rfl, Bool.true_or, ← swapIf_from_kernel true hb]
  exact Prod.ext hgs hkgs

theorem exit_gs {p : Platform} {m m' : Machine} (hg : GsInv p m) (h : m.exit = some m') :
    GsInv p m' := by
  obtain ⟨hctl, rfl⟩ := exit_eq_some h
  have hb := hg.bases
  rcases hctl with hctl | ⟨entered, frame, hctl⟩
  · rw [hctl] at hb
    exact gs_of_own hg rfl rfl hb
  · rw [hctl] at hb
    exact gs_of_own hg rfl rfl hb

theorem keyboard_gs {p : Platform} {m m' : Machine} {writes : List (Nat × Nat)} (hg : GsInv p m)
    (h : m.keyboard p writes = some m') : GsInv p m' := by
  obtain ⟨c, rfl, hcpu, -⟩ := keyboard_eq_some h
  refine gs_of_own hg rfl rfl ?_
  show c.cpu.bases = p.bases (ring3 c.cpu.cs || _)
  rw [hcpu]
  exact hg.bases

/-- The step lemma. -/
theorem machineStep_gs {p : Platform} {m m' : Machine} {e : MachineEvent} (hs : MachineInv p m)
    (hg : GsInv p m) (hsafe : GsSafe m e) (h : machineStep p m e = some m') : GsInv p m' := by
  cases e with
  | newTask entry process =>
    simp only [machineStep] at h
    split at h
    · exact spawn_gs hs hg rfl h
    · exact spawn_gs hs hg rfl h
    · cases h
  | newUser process =>
    simp only [machineStep] at h
    split at h
    · exact spawn_gs hs hg rfl h
    · exact spawn_gs hs hg rfl h
    · cases h
  | start =>
    simp only [machineStep] at h
    split at h
    · next hboot => exact start_gs hg hboot h
    · cases h
  | dispatchStep => exact dispatchStep_gs hs hg h
  | timer lockFree scratch =>
    exact tick_gs hg hsafe (.inl rfl) (Option.ite_none_right_eq_some.mp h).2
  | yield lockFree scratch =>
    obtain ⟨hmay, h⟩ := Option.ite_none_right_eq_some.mp h
    have hctl : m.ctl.leaving = false := by
      cases hc : m.ctl <;> rw [hc] at hmay <;> first | rfl | cases hmay
    exact tick_gs hg hctl (.inr rfl) h
  | runKernel regs writes => exact runKernel_gs hg h
  | runUser regs => exact runUser_gs hg h
  | syscallEnter => exact syscallEnter_gs hs hg h
  | syscallReturn scratch result => exact syscallReturn_gs hs hg h
  | exit => exact exit_gs hg h
  | keyboard writes => exact keyboard_gs hg (Option.ite_none_right_eq_some.mp h).2
  | fault errorCode => exact hsafe.elim

/-- `syscall_entry` executes one `swapgs`, in front of everything else. -/
theorem bases_at_access {env : Env} {before behind : List Instr} {i : Instr} {c c' : Core}
    (hcode : syscallEntry = before ++ i :: behind) (hi : i.usesGs = true)
    (h : exec env 0 before c.syscall = some c') : c'.cpu.gsBase = c.cpu.kernelGsBase := by
  have hrest : Instr.swapgs ∉ syscallEntry.tail := by decide
  cases before with
  | nil =>
    cases hcode
    cases hi
  | cons j before =>
    rw [hcode] at hrest
    have hj : Instr.swapgs = j := List.head_eq_of_cons_eq hcode
    subst hj
    rw [exec_cons (by simp)] at h
    have hbases := exec_bases (fun hin => hrest (List.mem_append_left _ hin)) h
    exact congrArg Prod.fst hbases

end GsLemmas

open GsLemmas MachineLemmas

/-- In every run in which no program faults and no timer interrupt comes between the `swapgs` and the
`iretq` of `start_scheduling`, the discipline holds in every state. -/
theorem gs_discipline (p : Platform) (ctx : Context) (mem : Nat → Nat) (hw : Hardware)
    (es : List MachineEvent) (m : Machine)
    (hsafe : AllSteps (machineStep p) GsSafe (Machine.init p ctx mem hw) es)
    (h : run (machineStep p) (Machine.init p ctx mem hw) es = some m) : GsDiscipline p m := by
  have hstep : ∀ s e s', MachineInv p s ∧ GsInv p s → GsSafe s e → machineStep p s e = some s' →
      MachineInv p s' ∧ GsInv p s' := fun s e s' hs hsafe h =>
    ⟨machineStep_inv p s e s' hs.1 h, machineStep_gs hs.1 hs.2 hsafe h⟩
  have hinit : MachineInv p (Machine.init p ctx mem hw) ∧ GsInv p (Machine.init p ctx mem hw) :=
    ⟨init_inv p ctx mem hw, by rw [Machine.init, ring3_kernel]; rfl, fun t ht => nomatch ht⟩
  obtain ⟨hs, hg⟩ := run_invariant_of hstep hinit hsafe h
  constructor
  case in_ring3 =>
    intro hr
    exact Prod.mk.inj (bases_in_user hs hg ((ring3_iff hs).mp hr))
  case at_access =>
    intro hctl before i behind hcode hi c hexec
    rw [bases_at_access hcode hi hexec]
    exact (Prod.mk.inj (bases_in_user hs hg hctl)).2

theorem gs_discipline_sample : ∃ m,
    run (machineStep samplePlatform) (Machine.init samplePlatform sampleContext (fun _ => 0) ⟨0, 0, 0⟩)
      sampleEvents = some m ∧
    m.ctl.mayYield = false ∧ ring3 m.core.cpu.cs = true ∧ GsDiscipline samplePlatform m := by
  have hsafe : AllSteps (machineStep samplePlatform) GsSafe
      (Machine.init samplePlatform sampleContext (fun _ => 0) ⟨0, 0, 0⟩) sampleEvents := by
    decide +kernel
  have hrun : (run (machineStep samplePlatform)
      (Machine.init samplePlatform sampleContext (fun _ => 0) ⟨0, 0, 0⟩) sampleEvents).map
        (fun m => (m.ctl.mayYield, ring3 m.core.cpu.cs)) = some (false, true) := by
    decide +kernel
  obtain ⟨m, hm, heq⟩ := Option.map_eq_some_iff.mp hrun
  obtain ⟨hyield, hring⟩ := Prod.mk.inj heq
  exact ⟨m, hm, hyield, hring, gs_discipline samplePlatform sampleContext (fun _ => 0) ⟨0, 0, 0⟩
    sampleEvents m hsafe hm⟩

/-! ## Where it fails -/

/-- Two programs; the first one faults. -/
def faultEvents : List MachineEvent :=
  [.newUser ⟨0x1000, 0x40_0000, 0x7FFF_F000⟩, .newUser ⟨0x2000, 0x40_0000, 0x7FFF_F000⟩, .start] ++
    List.replicate 20 .dispatchStep ++ [.fault 4, .yield true sampleScratch]

/-- The second program runs with the kernel's GS base, and `syscall_entry` accesses memory at the
user's. -/
theorem fault_breaks_gs : ∃ m c,
    run (machineStep samplePlatform) (Machine.init samplePlatform sampleContext (fun _ => 0) ⟨0, 0, 0⟩)
      faultEvents = some m ∧
    m.ctl = .user ∧ ring3 m.core.cpu.cs = true ∧ m.core.cpu.gsBase = samplePlatform.perCpu ∧
    m.core.cpu.kernelGsBase = 0 ∧ exec (m.env samplePlatform) 0 [.swapgs] m.core.syscall = some c ∧
    c.cpu.gsBase = 0 ∧ ¬ GsDiscipline samplePlatform m := by
  have hrun : (run (machineStep samplePlatform)
      (Machine.init samplePlatform sampleContext (fun _ => 0) ⟨0, 0, 0⟩) faultEvents).map
        (fun m => (m.ctl.isUser, ring3 m.core.cpu.cs, m.core.cpu.gsBase, m.core.cpu.kernelGsBase)) =
      some (true, true, samplePlatform.perCpu, 0) := by
    decide +kernel
  obtain ⟨m, hm, heq⟩ := Option.map_eq_some_iff.mp hrun
  simp only [Prod.mk.injEq] at heq
  obtain ⟨huser, hring, hgs, hkgs⟩ := heq
  refine ⟨m, _, hm, Ctl.eq_user_of_isUser huser, hring, hgs, hkgs, rfl, hkgs, fun hd => ?_⟩
  have hzero := (hd.in_ring3 hring).1
  rw [hgs] at hzero
  exact absurd hzero (by decide)

/-- Two programs; the timer interrupts `start_scheduling` in front of its last instruction. -/
def earlyTimerEvents : List MachineEvent :=
  [.newUser ⟨0x1000, 0x40_0000, 0x7FFF_F000⟩, .newUser ⟨0x2000, 0x40_0000, 0x7FFF_F000⟩, .start] ++
    List.replicate 19 .dispatchStep ++ [.timer true sampleScratch]

/-- The second program runs with the kernel's GS base. -/
theorem timer_before_iretq_breaks_gs : ∃ m,
    run (machineStep samplePlatform) (Machine.init samplePlatform sampleContext (fun _ => 0) ⟨0, 0, 0⟩)
      earlyTimerEvents = some m ∧
    ring3 m.core.cpu.cs = true ∧ m.core.cpu.gsBase = samplePlatform.perCpu ∧
    m.core.cpu.kernelGsBase = 0 := by
  have hrun : (run (machineStep samplePlatform)
      (Machine.init samplePlatform sampleContext (fun _ => 0) ⟨0, 0, 0⟩) earlyTimerEvents).map
        (fun m => (ring3 m.core.cpu.cs, m.core.cpu.gsBase, m.core.cpu.kernelGsBase)) =
      some (true, samplePlatform.perCpu, 0) := by
    decide +kernel
  obtain ⟨m, hm, heq⟩ := Option.map_eq_some_iff.mp hrun
  simp only [Prod.mk.injEq] at heq
  exact ⟨m, hm, heq⟩

end Turnix
