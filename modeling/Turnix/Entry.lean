import Turnix.Cpu

/-!
# The entry stubs

The assembly of `interrupts/mod.rs`, `syscall/mod.rs` and `scheduler::start_scheduling`, each cut at
its `call`, with one lemma for what each piece does.
-/

namespace Turnix

open Lib

/-! ## The code -/

/-- The trace at the top of `timer_interrupt_entry`. -/
def timerTrace : List Instr :=
  [.push .rax, .push .rdx, .movDx 0x3f8, .movAl 84, .outDxAl, .pop .rdx, .pop .rax]

/-- `yield_interrupt_entry`, up to the call. -/
def yieldInterruptEntry : List Instr :=
  [.testCs, .jz 1, .swapgs] ++ pushRegs ++ [.movRdiRsp]

/-- `timer_interrupt_entry`, up to the call. -/
def timerInterruptEntry : List Instr :=
  timerTrace ++ ([.testCs, .jz 1, .swapgs] ++ pushRegs ++ [.movRdiRsp])

/-- Both interrupt stubs from the call on. -/
def interruptRestore : List Instr := .movRspRax :: popRegs ++ [.testCs, .jz 1, .swapgs, .iretq]

/-- `syscall_entry`, up to the call. -/
def syscallEntry : List Instr :=
  [.swapgs, .movGsRsp 8, .movRspGs 0, .pushImm 0x23, .pushGs 8, .push .r11, .pushImm 0x2b,
    .push .rcx] ++ pushRegs ++ [.movRdiRsp]

/-- `syscall_entry` from the call on. -/
def syscallExit : List Instr := .storeRax (14 * 8) :: popRegs ++ [.swapgs, .iretq]

/-- The `asm!` block of `start_scheduling`. -/
def dispatchCode (nextPtr : Nat) : List Instr :=
  .movRsp nextPtr :: popRegs ++ [.testCs, .jz 1, .swapgs, .iretq]

/-- The context that `syscall_entry` puts on the stack for a caller with context `ctx`. -/
def Context.atSyscall (ctx : Context) : Context where
  gpr := Function.update (Function.update ctx.gpr .rcx ctx.rip) .r11 ctx.rflags
  rip := ctx.rip
  cs := 0x2b
  rflags := ctx.rflags
  rsp := ctx.rsp
  ss := 0x23

/-- What a called Rust function leaves behind: the registers, and stores to its part of the stack. -/
structure Scratch where
  gpr : Reg → Nat
  writes : List (Nat × Nat)

/-- Stores to words that may be written, below `top`. -/
def scribble (ok : Nat → Bool) (top : Nat) : List (Nat × Nat) → (Nat → Nat) → Option (Nat → Nat)
  | [], mem => some mem
  | (a, w) :: ws, mem =>
    if ok a = true ∧ a + 8 ≤ top then scribble ok top ws (Function.update mem a w) else none

/-- `call` of a Rust function. -/
def Core.call (env : Env) (scratch : Scratch) (c : Core) : Option Core :=
  (scribble env.writable c.cpu.rsp scratch.writes c.mem).map fun mem =>
    { c with mem := mem, cpu := { c.cpu with gpr := scratch.gpr } }

/-! ## What the pieces do -/

/-- Only words that may be written have changed, and only below `top`. -/
def OnlyBelow (ok : Nat → Bool) (top : Nat) (mem mem' : Nat → Nat) : Prop :=
  ∀ a, mem' a = mem a ∨ (ok a = true ∧ a < top)

theorem OnlyBelow.refl (ok : Nat → Bool) (top : Nat) (mem : Nat → Nat) : OnlyBelow ok top mem mem :=
  fun _ => .inl rfl

theorem OnlyBelow.trans {ok : Nat → Bool} {top top' : Nat} {mem mem' mem'' : Nat → Nat}
    (h : OnlyBelow ok top mem mem') (h' : OnlyBelow ok top' mem' mem'') (hle : top' ≤ top) :
    OnlyBelow ok top mem mem'' := by
  intro a
  rcases h' a with heq | ⟨hok, hlt⟩
  · rw [heq]
    exact h a
  · exact .inr ⟨hok, Nat.lt_of_lt_of_le hlt hle⟩

theorem OnlyBelow.eq_of_le {ok : Nat → Bool} {top a : Nat} {mem mem' : Nat → Nat}
    (h : OnlyBelow ok top mem mem') (ha : top ≤ a) : mem' a = mem a := by
  rcases h a with heq | ⟨-, hlt⟩
  · exact heq
  · omega

/-- The stack that an interrupt starts to push on. -/
def interruptTop (privilegeStack : Nat) (cpu : Cpu) : Nat :=
  if ring3 cpu.cs then privilegeStack else cpu.rsp

/-- The state at the call in an interrupt stub: the whole context stands at the stack pointer, and
GS has been swapped if ring 3 was interrupted. -/
structure Entered (env : Env) (privilegeStack : Nat) (c c' : Core) : Prop where
  frame : WordsAt c'.mem c'.cpu.rsp c.cpu.toContext.frame
  rdi : c'.cpu.gpr .rdi = c'.cpu.rsp
  below : OnlyBelow env.writable (interruptTop privilegeStack c.cpu) c.mem c'.mem
  depth : c'.cpu.rsp ≤ interruptTop privilegeStack c.cpu
  writable : ∀ i, i < 20 → env.writable (c'.cpu.rsp + 8 * i) = true
  gsBase : c'.cpu.gsBase = (CpuLemmas.swapIf (ring3 c.cpu.cs) c.cpu).gsBase
  kernelGsBase : c'.cpu.kernelGsBase = (CpuLemmas.swapIf (ring3 c.cpu.cs) c.cpu).kernelGsBase

namespace EntryLemmas

open CpuLemmas

theorem scribble_onlyBelow {ok : Nat → Bool} {top : Nat} : ∀ {ws : List (Nat × Nat)}
    {mem mem' : Nat → Nat}, scribble ok top ws mem = some mem' → OnlyBelow ok top mem mem'
  | [], mem, mem', h => by
    cases h
    exact OnlyBelow.refl ok top mem
  | (a, w) :: ws, mem, mem', h => by
    unfold scribble at h
    split at h
    · next hok =>
      refine OnlyBelow.trans (fun b => ?_) (scribble_onlyBelow h) (Nat.le_refl top)
      by_cases hb : b = a
      · subst hb
        exact .inr ⟨hok.1, by omega⟩
      · exact .inl (Function.update_of_ne hb w mem)
    · cases h

/-- Pushes change the words that they write. -/
theorem pushWords_onlyBelow {ok : Nat → Bool} {ws : List Nat} {sp sp' top : Nat}
    {mem mem' : Nat → Nat} (h : pushWords ok ws sp mem = some (sp', mem')) (hle : sp ≤ top) :
    OnlyBelow ok top mem mem' := by
  obtain ⟨hsp, -, hsame, hok⟩ := pushWords_spec h
  intro a
  by_cases ha : ∃ i, i < ws.length ∧ a = sp' + 8 * i
  · obtain ⟨i, hi, rfl⟩ := ha
    exact .inr ⟨hok i hi, by omega⟩
  · exact .inl (hsame a fun i hi heq => ha ⟨i, hi, heq⟩)

theorem pushAll_onlyBelow {env : Env} {ws : List Nat} {c c' : Core}
    (h : c.pushAll env ws = some c') : OnlyBelow env.writable c.cpu.rsp c.mem c'.mem := by
  obtain ⟨⟨sp, mem⟩, hpush, rfl⟩ := Option.map_eq_some_iff.mp h
  exact pushWords_onlyBelow hpush (Nat.le_refl _)

/-- The trace of the timer stub leaves the registers as they were. -/
theorem exec_timerTrace {env : Env} {is : List Instr} {c c' : Core}
    (h : exec env 0 (timerTrace ++ is) c = some c') :
    ∃ mem, OnlyBelow env.writable c.cpu.rsp c.mem mem ∧
      exec env 0 is { c with mem := mem } = some c' := by
  have htrace : timerTrace ++ is = [Reg.rax, .rdx].map Instr.push ++
      (.movDx 0x3f8 :: .movAl 84 :: .outDxAl :: ([Reg.rdx, .rax].map Instr.pop ++ is)) := rfl
  rw [htrace, exec_pushes] at h
  obtain ⟨c₁, hpush, h⟩ := Option.bind_eq_some_iff.mp h
  obtain ⟨sp, mem, rfl, hsp, hwords, -⟩ := pushAll_eq_some hpush
  refine ⟨mem, pushAll_onlyBelow hpush, ?_⟩
  rw [exec_cons (by simp)] at h
  simp only [Instr.step, Option.bind_some] at h
  rw [exec_cons (by simp)] at h
  simp only [Instr.step, Option.bind_some] at h
  rw [exec_cons (by simp)] at h
  simp only [Instr.step, Option.bind_some] at h
  rw [exec_pops, popAll_of_wordsAt (g := c.cpu.gpr)] at h
  · rw [← h]
    have hgpr : ∀ f : Reg → Nat, (∀ r, r ≠ .rax → r ≠ .rdx → f r = c.cpu.gpr r) →
        (fun r => if r ∈ [Reg.rdx, .rax] then c.cpu.gpr r else f r) = c.cpu.gpr := by
      intro f hf
      funext r
      split
      · rfl
      · next hr =>
        simp only [List.mem_cons, List.not_mem_nil, or_false, not_or] at hr
        exact hf r hr.2 hr.1
    rw [hgpr]
    · have hsp' : sp + 8 * [Reg.rdx, .rax].length = c.cpu.rsp := hsp
      simp only [Cpu.setReg, hsp']
    · intro r hax hdx
      simp only [Cpu.setReg]
      rw [Function.update_of_ne hax, Function.update_of_ne hdx]
  · exact hwords

/-- The part that the interrupt stubs share: the selector in the frame decides about GS, then the
registers are pushed behind the frame of the hardware. -/
theorem exec_save {env : Env} {c c' : Core} {ctx : Context}
    (hframe : WordsAt c.mem c.cpu.rsp ctx.hardwareFrame) (hgpr : c.cpu.gpr = ctx.gpr)
    (h : exec env 0 yieldInterruptEntry c = some c') :
    WordsAt c'.mem c'.cpu.rsp ctx.frame ∧ c'.cpu.gpr .rdi = c'.cpu.rsp ∧
      c'.cpu.rsp + 120 = c.cpu.rsp ∧ OnlyBelow env.writable c.cpu.rsp c.mem c'.mem ∧
      (∀ i, i < 15 → env.writable (c'.cpu.rsp + 8 * i) = true) ∧
      c'.cpu.gsBase = (swapIf (ring3 ctx.cs) c.cpu).gsBase ∧
      c'.cpu.kernelGsBase = (swapIf (ring3 ctx.cs) c.cpu).kernelGsBase := by
  have hcs : c.mem (c.cpu.rsp + 8) = ctx.cs := (wordsAt_cons.mp (wordsAt_cons.mp hframe).2).1
  have hcode : yieldInterruptEntry =
      .testCs :: .jz 1 :: .swapgs :: (savedRegs.map Instr.push ++ [.movRdiRsp]) := rfl
  rw [hcode, exec_swap, exec_pushes, hcs] at h
  obtain ⟨c₁, hpush, h⟩ := Option.bind_eq_some_iff.mp h
  have hbelow := pushAll_onlyBelow hpush
  obtain ⟨sp, mem, rfl, hsp, hwords, hsame, hok⟩ := pushAll_eq_some hpush
  cases h
  have hregs : (swapIf (ring3 ctx.cs) c.cpu).gpr = ctx.gpr := by
    unfold swapIf
    split <;> exact hgpr
  have hrsp : (swapIf (ring3 ctx.cs) c.cpu).rsp = c.cpu.rsp := by
    unfold swapIf
    split <;> rfl
  simp only [hregs, hrsp] at hsp hwords hbelow
  rw [← List.map_reverse] at hwords
  have hlen : 8 * (savedRegs.map ctx.gpr).length = 120 := rfl
  rw [hlen] at hsp
  refine ⟨?_, ?_, hsp, hbelow, hok, rfl, rfl⟩
  · refine wordsAt_append.mpr ⟨hwords, ?_⟩
    have hbase : sp + 8 * (savedRegs.reverse.map ctx.gpr).length = c.cpu.rsp := hsp
    show WordsAt mem (sp + 8 * (savedRegs.reverse.map ctx.gpr).length) _
    rw [hbase]
    refine hframe.congr fun i _ => ?_
    rcases hbelow (c.cpu.rsp + 8 * i) with heq | ⟨-, hlt⟩
    · exact heq
    · omega
  · exact Cpu.setReg_self _ _ _

theorem interrupt_eq_some {env : Env} {ps : Nat} {c c' : Core} (h : c.interrupt env ps = some c') :
    WordsAt c'.mem c'.cpu.rsp c.cpu.toContext.hardwareFrame ∧ c'.cpu.gpr = c.cpu.gpr ∧
      c'.cpu.rsp + 40 ≤ interruptTop ps c.cpu ∧
      OnlyBelow env.writable (interruptTop ps c.cpu) c.mem c'.mem ∧
      (∀ i, i < 5 → env.writable (c'.cpu.rsp + 8 * i) = true) ∧
      c'.cpu.gsBase = c.cpu.gsBase ∧ c'.cpu.kernelGsBase = c.cpu.kernelGsBase ∧
      c'.cpu.cs = 0x08 := by
  obtain ⟨⟨sp, mem⟩, hpush, rfl⟩ := Option.map_eq_some_iff.mp h
  have hle : interruptTop ps c.cpu / 16 * 16 ≤ interruptTop ps c.cpu := Nat.div_mul_le_self _ _
  have hbelow := pushWords_onlyBelow hpush hle
  obtain ⟨hsp, hwords, -, hok⟩ := pushWords_spec hpush
  refine ⟨hwords, rfl, ?_, hbelow, hok, rfl, rfl, rfl⟩
  show sp + 40 ≤ interruptTop ps c.cpu
  exact Nat.le_trans (Nat.le_of_eq hsp) hle

/-- An interrupt, then stores to the stack below its frame, then the shared part of the stubs. -/
theorem entered_of_save {env : Env} {ps : Nat} {c c₁ c' : Core} {mem : Nat → Nat}
    (hint : c.interrupt env ps = some c₁) (hmem : OnlyBelow env.writable c₁.cpu.rsp c₁.mem mem)
    (h : exec env 0 yieldInterruptEntry { c₁ with mem := mem } = some c') : Entered env ps c c' := by
  obtain ⟨hframe, hgpr, htop, hbelow, hok, hgs, hkgs, -⟩ := interrupt_eq_some hint
  have hframe₁ : WordsAt mem c₁.cpu.rsp c.cpu.toContext.hardwareFrame :=
    hframe.congr fun i _ => hmem.eq_of_le (by omega)
  obtain ⟨hframe', hrdi, hsp, hbelow', hok', hgs', hkgs'⟩ :=
    exec_save (c := { c₁ with mem := mem }) hframe₁ hgpr h
  have hswap : ∀ b, (swapIf b c₁.cpu).gsBase = (swapIf b c.cpu).gsBase ∧
      (swapIf b c₁.cpu).kernelGsBase = (swapIf b c.cpu).kernelGsBase := by
    intro b
    unfold swapIf
    split
    · exact ⟨hkgs, hgs⟩
    · exact ⟨hgs, hkgs⟩
  have hsp₁ : c'.cpu.rsp + 120 = c₁.cpu.rsp := hsp
  have hle : c₁.cpu.rsp ≤ interruptTop ps c.cpu := by omega
  refine ⟨hframe', hrdi, (hbelow.trans hmem hle).trans hbelow' hle, by omega, fun i hi => ?_,
    hgs'.trans (hswap _).1, hkgs'.trans (hswap _).2⟩
  by_cases hi15 : i < 15
  · exact hok' i hi15
  · have := hok (i - 15) (by omega)
    rwa [show c₁.cpu.rsp + 8 * (i - 15) = c'.cpu.rsp + 8 * i by omega] at this

theorem entered_yield {env : Env} {ps : Nat} {c c₁ c' : Core} (hint : c.interrupt env ps = some c₁)
    (h : exec env 0 yieldInterruptEntry c₁ = some c') : Entered env ps c c' :=
  entered_of_save hint (OnlyBelow.refl _ _ _) h

theorem entered_timer {env : Env} {ps : Nat} {c c₁ c' : Core} (hint : c.interrupt env ps = some c₁)
    (h : exec env 0 timerInterruptEntry c₁ = some c') : Entered env ps c c' := by
  obtain ⟨mem, hmem, h⟩ := exec_timerTrace h
  exact entered_of_save hint hmem h

theorem exec_movRspRax {env : Env} {c : Core} (code : List Instr) :
    exec env 0 (.movRspRax :: code) c =
      exec env 0 code { c with cpu := { c.cpu with rsp := c.cpu.gpr .rax } } := by
  rw [exec_cons (by simp)]
  rfl

/-- The rest of an interrupt stub: the frame at the stack pointer that the call returned is
loaded, and GS is swapped if it belongs to ring 3. -/
theorem exec_interruptRestore {env : Env} {c : Core} {ctx : Context}
    (h : WordsAt c.mem (c.cpu.gpr .rax) ctx.frame) :
    exec env 0 interruptRestore c =
      some { c with cpu := { swapIf (ring3 ctx.cs) c.cpu with toContext := ctx } } := by
  have hcode : interruptRestore =
      .movRspRax :: (popRegs ++ [.testCs, .jz 1, .swapgs, .iretq]) := rfl
  rw [hcode, exec_movRspRax,
    exec_restore (c := { c with cpu := { c.cpu with rsp := c.cpu.gpr .rax } }) h]
  unfold swapIf
  cases ring3 ctx.cs <;> rfl

/-- The state behind `mov rsp, gs:[0]` in `syscall_entry`. -/
def onKernelStack (env : Env) (c : Core) : Core where
  cpu :=
    { gpr := c.cpu.toContext.atSyscall.gpr
      rip := c.cpu.rip
      cs := 0x08
      rflags := maskedFlags c.cpu.rflags
      rsp := env.kernelStackPtr
      ss := 0x10
      gsBase := c.cpu.kernelGsBase
      kernelGsBase := c.cpu.gsBase }
  mem := c.mem
  userRspTemp := c.cpu.rsp

/-- What `syscall_entry` pushes for the `iretq` frame, and the instructions that do. -/
def syscallPushes (ctx : Context) : List (Instr × Nat) :=
  [(.pushImm 0x23, 0x23), (.pushGs 8, ctx.rsp), (.push .r11, ctx.rflags), (.pushImm 0x2b, 0x2b),
    (.push .rcx, ctx.rip)] ++ savedRegs.map fun r => (Instr.push r, ctx.atSyscall.gpr r)

theorem exec_toKernelStack {env : Env} {c : Core} (code : List Instr) :
    exec env 0 (.swapgs :: .movGsRsp 8 :: .movRspGs 0 :: code) c.syscall =
      if c.cpu.kernelGsBase = env.perCpu then exec env 0 code (onKernelStack env c) else none := by
  rw [exec_cons (by simp)]
  simp only [Instr.step, Option.bind_some]
  rw [exec_cons (by simp)]
  by_cases hgs : c.cpu.kernelGsBase = env.perCpu
  · simp only [Instr.step, Core.syscall, hgs, and_self, ↓reduceIte, Option.bind_some]
    rw [exec_cons (by simp)]
    simp only [Instr.step, Core.readGs, ↓reduceIte, Option.map_some, Option.bind_some,
      onKernelStack, Context.atSyscall, hgs]
  · simp only [Instr.step, Core.syscall, hgs, false_and, ↓reduceIte, Option.bind_none]

theorem syscallPushes_step {env : Env} {c : Core} (hgs : c.cpu.kernelGsBase = env.perCpu) :
    ∀ p ∈ syscallPushes c.cpu.toContext, (∀ n, p.1 ≠ .jz n) ∧ ∀ sp mem,
      p.1.step env { onKernelStack env c with
          cpu := { (onKernelStack env c).cpu with rsp := sp }, mem := mem } =
        { onKernelStack env c with
          cpu := { (onKernelStack env c).cpu with rsp := sp }, mem := mem : Core }.pushAll
            env [p.2] := by
  intro p hp
  simp only [syscallPushes, List.mem_append, List.mem_cons, List.not_mem_nil, or_false,
    List.mem_map] at hp
  rcases hp with (rfl | rfl | rfl | rfl | rfl) | ⟨r, -, rfl⟩
  · exact ⟨by simp, fun _ _ => rfl⟩
  · refine ⟨by simp, fun sp mem => ?_⟩
    simp only [Instr.step, Core.readGs, onKernelStack, hgs, ↓reduceIte, Option.bind_some]
  · refine ⟨by simp, fun sp mem => ?_⟩
    simp only [Instr.step, onKernelStack, Context.atSyscall, Function.update_self]
  · exact ⟨by simp, fun _ _ => rfl⟩
  · refine ⟨by simp, fun sp mem => ?_⟩
    simp only [Instr.step, onKernelStack, Context.atSyscall, ne_eq, reduceCtorEq,
      not_false_eq_true, Function.update_of_ne, Function.update_self]
  · exact ⟨by simp, fun _ _ => rfl⟩

theorem syscallPushes_words (ctx : Context) :
    ((syscallPushes ctx).map Prod.snd).reverse = ctx.atSyscall.frame := by
  rw [syscallPushes, List.map_append, List.map_map, List.reverse_append, ← List.map_reverse]
  rfl

/-- `syscall` and `syscall_entry` up to the call: the caller's context stands at the top of the
kernel stack that `PER_CPU` names. -/
theorem exec_syscallEntry {env : Env} {c c' : Core}
    (h : exec env 0 syscallEntry c.syscall = some c') :
    c.cpu.kernelGsBase = env.perCpu ∧
      WordsAt c'.mem c'.cpu.rsp c.cpu.toContext.atSyscall.frame ∧
      c'.cpu.rsp + 160 = env.kernelStackPtr ∧
      OnlyBelow env.writable env.kernelStackPtr c.mem c'.mem ∧
      c'.cpu.gsBase = c.cpu.kernelGsBase ∧ c'.cpu.kernelGsBase = c.cpu.gsBase ∧
      c'.cpu.cs = 0x08 := by
  have hcode : syscallEntry = .swapgs :: .movGsRsp 8 :: .movRspGs 0 ::
      ((syscallPushes c.cpu.toContext).map Prod.fst ++ [.movRdiRsp]) := rfl
  rw [hcode, exec_toKernelStack] at h
  obtain ⟨hgs, h⟩ := Option.ite_none_right_eq_some.mp h
  rw [exec_pushLike env _ _ _ (syscallPushes_step hgs)] at h
  obtain ⟨c₁, hc₁, h⟩ := Option.bind_eq_some_iff.mp h
  have hbelow := pushAll_onlyBelow hc₁
  obtain ⟨sp, mem, rfl, hsp, hwords, -, -⟩ := pushAll_eq_some hc₁
  rw [syscallPushes_words] at hwords
  cases h
  exact ⟨hgs, hwords, hsp, hbelow, rfl, rfl, rfl⟩

theorem exec_storeRax {env : Env} {off : Nat} {c : Core} (code : List Instr) :
    exec env 0 (.storeRax off :: code) c =
      if env.writable (c.cpu.rsp + off) = true then
        exec env 0 code { c with mem := Function.update c.mem (c.cpu.rsp + off) (c.cpu.gpr .rax) }
      else none := by
  rw [exec_cons (by simp)]
  simp only [Instr.step]
  split <;> rfl

theorem exec_swapgs_iretq {env : Env} {c : Core} {ctx : Context}
    (h : WordsAt c.mem c.cpu.rsp ctx.hardwareFrame) :
    exec env 0 [.swapgs, .iretq] c = some { c with cpu :=
      ⟨{ ctx with gpr := c.cpu.gpr }, c.cpu.kernelGsBase, c.cpu.gsBase⟩ } := by
  rw [exec_cons (by simp)]
  simp only [Instr.step, Option.bind_some]
  rw [exec_cons (by simp), iretq_of_wordsAt ctx]
  · rfl
  · exact h

/-- The frame with the result in place of `rax`. -/
theorem wordsAt_storeRax {mem : Nat → Nat} {sp v : Nat} {ctx : Context}
    (h : WordsAt mem sp ctx.frame) :
    WordsAt (Function.update mem (sp + 112) v) sp
      (Context.frame { ctx with gpr := Function.update ctx.gpr .rax v }) := by
  have hsplit : ∀ x : Context, x.frame =
      savedRegs.tail.reverse.map x.gpr ++ x.gpr .rax :: x.hardwareFrame := fun _ => rfl
  have hlow : savedRegs.tail.reverse.map (Function.update ctx.gpr .rax v) =
      savedRegs.tail.reverse.map ctx.gpr := rfl
  rw [hsplit, wordsAt_append, wordsAt_cons] at h ⊢
  obtain ⟨hregs, -, hhw⟩ := h
  rw [hlow]
  refine ⟨hregs.congr fun i hi => ?_, ?_, hhw.congr fun i _ => ?_⟩
  · have hi' : i < 14 := hi
    rw [Function.update_of_ne (by omega)]
  · show Function.update mem (sp + 112) v (sp + 112) = Function.update ctx.gpr .rax v .rax
    rw [Function.update_self, Function.update_self]
  · rw [Function.update_of_ne]
    show sp + 8 * 14 + 8 + 8 * i ≠ _
    omega

/-- The rest of `syscall_entry`: the result replaces `rax` in the frame at the stack pointer, and the
frame is loaded. -/
theorem exec_syscallExit {env : Env} {c c' : Core} {ctx : Context}
    (hframe : WordsAt c.mem c.cpu.rsp ctx.frame) (h : exec env 0 syscallExit c = some c') :
    c'.cpu.toContext = { ctx with gpr := Function.update ctx.gpr .rax (c.cpu.gpr .rax) } ∧
      OnlyBelow env.writable (c.cpu.rsp + 160) c.mem c'.mem ∧
      c'.cpu.gsBase = c.cpu.kernelGsBase ∧ c'.cpu.kernelGsBase = c.cpu.gsBase := by
  have hcode : syscallExit = .storeRax 112 :: (popRegs ++ [.swapgs, .iretq]) := rfl
  rw [hcode, exec_storeRax] at h
  obtain ⟨hok, h⟩ := Option.ite_none_right_eq_some.mp h
  obtain ⟨hpop, hhw⟩ := exec_popRegs env [.swapgs, .iretq]
    (c := { c with mem := Function.update c.mem (c.cpu.rsp + 112) (c.cpu.gpr .rax) })
    (wordsAt_storeRax hframe)
  rw [hpop, exec_swapgs_iretq hhw] at h
  cases h
  refine ⟨rfl, fun a => ?_, rfl, rfl⟩
  by_cases ha : a = c.cpu.rsp + 112
  · subst ha
    exact .inr ⟨hok, by omega⟩
  · exact .inl (Function.update_of_ne ha _ _)

end EntryLemmas

end Turnix
