import Turnix.Lib.Stack

/-!
# The part of x86-64 under the entry stubs

The fifteen general-purpose registers, the registers of an `iretq` frame and the two GS bases; the
instructions that the stubs of the kernel consist of; and what the hardware does at an interrupt and
at a `syscall`. Memory is the kernel's stacks, by words. A store outside the stack that the code runs
on has no step. Nor has a GS access that does not reach `PER_CPU`: the first one in `syscall_entry` is
a store, and with another base it would go elsewhere.
-/

namespace Turnix

open Lib

/-- The general-purpose registers, less `rsp`. -/
inductive Reg
  | rax | rbx | rcx | rdx | rbp | rsi | rdi | r8 | r9 | r10 | r11 | r12 | r13 | r14 | r15
deriving DecidableEq, Repr

/-- What a context switch has to keep. -/
@[ext]
structure Context where
  gpr : Reg → Nat
  rip : Nat
  cs : Nat
  rflags : Nat
  rsp : Nat
  ss : Nat

/-- The CPU: a context and the GS bases. -/
structure Cpu extends Context where
  gsBase : Nat
  kernelGsBase : Nat

/-- Load a register. -/
def Cpu.setReg (cpu : Cpu) (r : Reg) (v : Nat) : Cpu :=
  { cpu with gpr := Function.update cpu.gpr r v }

theorem Cpu.setReg_self (cpu : Cpu) (r : Reg) (v : Nat) : (cpu.setReg r v).gpr r = v := by
  simp [Cpu.setReg]

/-- The CPU with the memory the stubs work on. -/
structure Core where
  cpu : Cpu
  mem : Nat → Nat
  userRspTemp : Nat

/-- What the instructions depend on besides: the words that may be written, the address of `PER_CPU`
and its field `kernel_stack_ptr`. -/
structure Env where
  writable : Nat → Bool
  perCpu : Nat
  kernelStackPtr : Nat

/-! ## Flags -/

/-- A selector of privilege level 3, as `test cs, 3` sees it. -/
def ring3 (cs : Nat) : Bool := cs % 4 ≠ 0

theorem ring3_kernel : ring3 0x08 = false := by
  decide

/-- The zero flag. -/
def zeroFlag (rflags : Nat) : Bool := rflags.testBit 6

/-- The interrupt flag. -/
def interruptFlag (rflags : Nat) : Bool := rflags.testBit 9

/-- The flags after `test x, 3`, where the result is `v`: CF, PF, ZF, SF and OF are set by it. -/
def testFlags (v rflags : Nat) : Nat :=
  (rflags &&& (2 ^ 64 - 1 - 0x8C5)) ||| (if v = 0 then 0x44 else if v = 3 then 0x4 else 0)

/-- The flags behind an interrupt gate: TF, IF, NT and RF are cleared. -/
def gateFlags (rflags : Nat) : Nat := rflags &&& (2 ^ 64 - 1 - 0x14300)

/-- The flags behind a `syscall`: `SFMASK` is the interrupt flag. -/
def maskedFlags (rflags : Nat) : Nat := rflags &&& (2 ^ 64 - 1 - 0x200)

theorem zeroFlag_testFlags (v rflags : Nat) : zeroFlag (testFlags v rflags) = decide (v = 0) := by
  unfold zeroFlag testFlags
  have hmask : Nat.testBit (2 ^ 64 - 1 - 0x8C5) 6 = false := by decide
  rw [Nat.testBit_or, Nat.testBit_and, hmask, Bool.and_false, Bool.false_or]
  by_cases hv : v = 0
  · simp only [hv, ↓reduceIte]
    decide
  · by_cases h3 : v = 3
    · simp only [h3]
      decide
    · simp only [hv, h3, ↓reduceIte, decide_false]
      decide

/-! ## Instructions -/

/-- The instructions of the stubs. -/
inductive Instr
  | push (r : Reg)
  | pop (r : Reg)
  /-- `push imm` -/
  | pushImm (v : Nat)
  /-- `push qword ptr gs:[off]` -/
  | pushGs (off : Nat)
  /-- `mov qword ptr gs:[off], rsp` -/
  | movGsRsp (off : Nat)
  /-- `mov rsp, qword ptr gs:[off]` -/
  | movRspGs (off : Nat)
  /-- `mov rsp, v`, with `v` in a register that the compiler chose -/
  | movRsp (v : Nat)
  /-- `mov rdi, rsp` -/
  | movRdiRsp
  /-- `mov rsp, rax` -/
  | movRspRax
  /-- `mov [rsp + off], rax` -/
  | storeRax (off : Nat)
  /-- `mov dx, v` -/
  | movDx (v : Nat)
  /-- `mov al, v` -/
  | movAl (v : Nat)
  /-- `out dx, al` -/
  | outDxAl
  /-- `test qword ptr [rsp + 8], 0x3` -/
  | testCs
  /-- `jz` over the next `n` instructions -/
  | jz (n : Nat)
  | swapgs
  | iretq
deriving DecidableEq, Repr

/-- The instructions that read or write memory through GS. -/
def Instr.usesGs : Instr → Bool
  | pushGs _ | movGsRsp _ | movRspGs _ => true
  | _ => false

namespace Core

/-- Push words on the current stack. -/
def pushAll (env : Env) (ws : List Nat) (c : Core) : Option Core :=
  (pushWords env.writable ws c.cpu.rsp c.mem).map fun r =>
    { c with cpu := { c.cpu with rsp := r.1 }, mem := r.2 }

/-- Pop registers from the current stack. -/
def popAll : List Reg → Core → Core
  | [], c => c
  | r :: rs, c => popAll rs { c with cpu := { c.cpu with
      gpr := Function.update c.cpu.gpr r (c.mem c.cpu.rsp)
      rsp := c.cpu.rsp + 8 } }

/-- The word at `gs:[off]`: a field of `PER_CPU`. -/
def readGs (env : Env) (off : Nat) (c : Core) : Option Nat :=
  if c.cpu.gsBase = env.perCpu then
    match off with
    | 0 => some env.kernelStackPtr
    | 8 => some c.userRspTemp
    | _ => none
  else none

end Core

/-- One instruction; a jump is left to `exec`. -/
def Instr.step (env : Env) (i : Instr) (c : Core) : Option Core :=
  match i with
  | push r => c.pushAll env [c.cpu.gpr r]
  | pop r => some (c.popAll [r])
  | pushImm v => c.pushAll env [v]
  | pushGs off => (c.readGs env off).bind fun v => c.pushAll env [v]
  | movGsRsp off =>
    if c.cpu.gsBase = env.perCpu ∧ off = 8 then some { c with userRspTemp := c.cpu.rsp } else none
  | movRspGs off =>
    (c.readGs env off).map fun v => { c with cpu := { c.cpu with rsp := v } }
  | movRsp v => some { c with cpu := { c.cpu with rsp := v } }
  | movRdiRsp => some { c with cpu := c.cpu.setReg .rdi c.cpu.rsp }
  | movRspRax => some { c with cpu := { c.cpu with rsp := c.cpu.gpr .rax } }
  | storeRax off =>
    if env.writable (c.cpu.rsp + off) = true then
      some { c with mem := Function.update c.mem (c.cpu.rsp + off) (c.cpu.gpr .rax) }
    else none
  | movDx v => some { c with cpu := c.cpu.setReg .rdx (c.cpu.gpr .rdx / 2 ^ 16 * 2 ^ 16 + v) }
  | movAl v => some { c with cpu := c.cpu.setReg .rax (c.cpu.gpr .rax / 2 ^ 8 * 2 ^ 8 + v) }
  | outDxAl => some c
  | testCs => some { c with cpu := { c.cpu with
      rflags := testFlags (c.mem (c.cpu.rsp + 8) % 4) c.cpu.rflags } }
  | jz _ => some c
  | swapgs => some { c with cpu := { c.cpu with
      gsBase := c.cpu.kernelGsBase
      kernelGsBase := c.cpu.gsBase } }
  | iretq =>
    let sp := c.cpu.rsp
    some { c with cpu := { c.cpu with
      rip := c.mem sp
      cs := c.mem (sp + 8)
      rflags := c.mem (sp + 16)
      rsp := c.mem (sp + 24)
      ss := c.mem (sp + 32) } }

/-- Run a piece of code from its start to its end; the first argument counts the instructions that a
jump passes over. -/
def exec (env : Env) : Nat → List Instr → Core → Option Core
  | _, [], c => some c
  | n + 1, _ :: is, c => exec env n is c
  | 0, .jz n :: is, c => exec env (if zeroFlag c.cpu.rflags then n else 0) is c
  | 0, i :: is, c => (i.step env c).bind fun c => exec env 0 is c

/-! ## Hardware transitions -/

namespace Core

/-- An interrupt through a gate of the IDT: from ring 3 the stack is the one of the TSS, and `ss` is
loaded with the null selector. The stack pointer is aligned before the frame is pushed. -/
def interrupt (env : Env) (privilegeStack : Nat) (c : Core) : Option Core :=
  let top := if ring3 c.cpu.cs then privilegeStack else c.cpu.rsp
  (pushWords env.writable [c.cpu.ss, c.cpu.rsp, c.cpu.rflags, c.cpu.cs, c.cpu.rip] (top / 16 * 16)
    c.mem).map fun r =>
      { c with
        mem := r.2
        cpu := { c.cpu with
          rsp := r.1
          cs := 0x08
          ss := if ring3 c.cpu.cs then 0 else c.cpu.ss
          rflags := gateFlags c.cpu.rflags } }

/-- `syscall`: the return address goes to `rcx` and the flags to `r11`; the selectors are those of
`STAR`, and the stack stays. -/
def syscall (c : Core) : Core :=
  { c with cpu := { c.cpu with
    gpr := Function.update (Function.update c.cpu.gpr .rcx c.cpu.rip) .r11 c.cpu.rflags
    cs := 0x08
    ss := 0x10
    rflags := maskedFlags c.cpu.rflags } }

end Core

/-! ## Saving and restoring registers -/

/-- The order in which the stubs push the registers. -/
def savedRegs : List Reg :=
  [.rax, .rbx, .rcx, .rdx, .rbp, .rsi, .rdi, .r8, .r9, .r10, .r11, .r12, .r13, .r14, .r15]

theorem mem_savedRegs (r : Reg) : r ∈ savedRegs := by
  cases r <;> decide

/-- The part of a context frame that the hardware pushes, from the low end. -/
def Context.hardwareFrame (ctx : Context) : List Nat :=
  [ctx.rip, ctx.cs, ctx.rflags, ctx.rsp, ctx.ss]

/-- A context as it lies on the stack of a task that is not running, from the low end. -/
def Context.frame (ctx : Context) : List Nat :=
  savedRegs.reverse.map ctx.gpr ++ ctx.hardwareFrame

/-- `push rax` to `push r15`. -/
def pushRegs : List Instr := savedRegs.map .push

/-- `pop r15` to `pop rax`. -/
def popRegs : List Instr := savedRegs.reverse.map .pop

namespace CpuLemmas

theorem pushAll_cons {env : Env} {w : Nat} {ws : List Nat} {c : Core} :
    c.pushAll env (w :: ws) = (c.pushAll env [w]).bind fun c => c.pushAll env ws := by
  simp only [Core.pushAll, pushWords]
  by_cases h : 8 ≤ c.cpu.rsp ∧ env.writable (c.cpu.rsp - 8) = true
  · simp only [h, and_self, ↓reduceIte, Option.map_some, Option.bind_some]
  · simp only [h, ↓reduceIte, Option.map_none, Option.bind_none]

/-- What pushes do, in the terms of the core. -/
theorem pushAll_eq_some {env : Env} {ws : List Nat} {c c' : Core}
    (h : c.pushAll env ws = some c') :
    ∃ sp mem, c' = { c with cpu := { c.cpu with rsp := sp }, mem := mem } ∧
      sp + 8 * ws.length = c.cpu.rsp ∧ WordsAt mem sp ws.reverse ∧
      (∀ a, (∀ i, i < ws.length → a ≠ sp + 8 * i) → mem a = c.mem a) ∧
      ∀ i, i < ws.length → env.writable (sp + 8 * i) = true := by
  obtain ⟨⟨sp, mem⟩, hpush, rfl⟩ := Option.map_eq_some_iff.mp h
  exact ⟨sp, mem, rfl, pushWords_spec hpush⟩

theorem exec_cons {env : Env} {i : Instr} {is : List Instr} {c : Core} (hi : ∀ n, i ≠ .jz n) :
    exec env 0 (i :: is) c = (i.step env c).bind fun c => exec env 0 is c := by
  cases i <;> first | rfl | exact absurd rfl (hi _)

theorem exec_jz {env : Env} {n : Nat} {is : List Instr} {c : Core} :
    exec env 0 (.jz n :: is) c = exec env (if zeroFlag c.cpu.rflags = true then n else 0) is c :=
  rfl

theorem exec_skip {env : Env} {n : Nat} {i : Instr} {is : List Instr} {c : Core} :
    exec env (n + 1) (i :: is) c = exec env n is c :=
  rfl

/-- A run of instructions that each push a value, where no push changes what the later ones push. -/
theorem exec_pushLike (env : Env) (is : List Instr) : ∀ (ps : List (Instr × Nat)) (c : Core),
    (∀ p ∈ ps, (∀ n, p.1 ≠ .jz n) ∧ ∀ sp mem,
      p.1.step env { c with cpu := { c.cpu with rsp := sp }, mem := mem } =
        { c with cpu := { c.cpu with rsp := sp }, mem := mem : Core }.pushAll env [p.2]) →
    exec env 0 (ps.map Prod.fst ++ is) c =
      (c.pushAll env (ps.map Prod.snd)).bind fun c => exec env 0 is c
  | [], _, _ => rfl
  | p :: ps, c, h => by
    obtain ⟨hjz, hstep⟩ := h p List.mem_cons_self
    rw [List.map_cons, List.cons_append, exec_cons hjz, List.map_cons, pushAll_cons,
      Option.bind_assoc, hstep c.cpu.rsp c.mem]
    refine Option.bind_congr fun c' hc' => ?_
    obtain ⟨sp, mem, rfl, -⟩ := pushAll_eq_some hc'
    exact exec_pushLike env is ps _ fun q hq => h q (List.mem_cons_of_mem p hq)

theorem exec_pushes (env : Env) (is : List Instr) (rs : List Reg) (c : Core) :
    exec env 0 (rs.map .push ++ is) c =
      (c.pushAll env (rs.map c.cpu.gpr)).bind fun c => exec env 0 is c := by
  have h := exec_pushLike env is (rs.map fun r => (Instr.push r, c.cpu.gpr r)) c ?_
  · rwa [List.map_map, List.map_map] at h
  · intro p hp
    obtain ⟨r, -, rfl⟩ := List.mem_map.mp hp
    exact ⟨by simp, fun _ _ => rfl⟩

theorem exec_pops (env : Env) (is : List Instr) : ∀ (rs : List Reg) (c : Core),
    exec env 0 (rs.map .pop ++ is) c = exec env 0 is (c.popAll rs)
  | [], _ => rfl
  | r :: rs, c => by
    rw [List.map_cons, List.cons_append, exec_cons (by simp)]
    show exec env 0 (rs.map .pop ++ is) (c.popAll [r]) = _
    rw [exec_pops env is rs]
    rfl

/-- Popping registers whose values stand on the stack. -/
theorem popAll_of_wordsAt {g : Reg → Nat} : ∀ {rs : List Reg} {c : Core},
    WordsAt c.mem c.cpu.rsp (rs.map g) →
    c.popAll rs = { c with cpu := { c.cpu with
      gpr := fun r => if r ∈ rs then g r else c.cpu.gpr r
      rsp := c.cpu.rsp + 8 * rs.length } }
  | [], c, _ => by simp [Core.popAll]
  | r :: rs, c, h => by
    obtain ⟨hr, hrs⟩ := wordsAt_cons.mp h
    rw [Core.popAll, popAll_of_wordsAt (g := g) hrs]
    have hgpr : (fun q => if q ∈ rs then g q
        else Function.update c.cpu.gpr r (c.mem c.cpu.rsp) q) =
        fun q => if q ∈ r :: rs then g q else c.cpu.gpr q := by
      funext q
      by_cases hq : q ∈ rs
      · simp [hq]
      · by_cases hqr : q = r
        · subst hqr
          simp [hq, hr]
        · simp [hq, hqr]
    have hrsp : c.cpu.rsp + 8 + 8 * rs.length = c.cpu.rsp + 8 * (r :: rs).length := by
      rw [List.length_cons]
      omega
    simp only [hgpr, hrsp]

/-- `swapgs`, where the code under a selector of ring 3 is left or entered. -/
def swapIf (b : Bool) (cpu : Cpu) : Cpu :=
  if b then { cpu with gsBase := cpu.kernelGsBase, kernelGsBase := cpu.gsBase } else cpu

/-- `test [rsp + 8], 3; jz; swapgs` reads the selector in the frame. -/
theorem exec_swap {env : Env} {is : List Instr} {c : Core} :
    exec env 0 (.testCs :: .jz 1 :: .swapgs :: is) c = exec env 0 is
      { c with cpu := { swapIf (ring3 (c.mem (c.cpu.rsp + 8))) c.cpu with
        rflags := testFlags (c.mem (c.cpu.rsp + 8) % 4) c.cpu.rflags } } := by
  rw [exec_cons (by simp)]
  show exec env 0 (.jz 1 :: .swapgs :: is) _ = _
  rw [exec_jz]
  simp only [zeroFlag_testFlags, decide_eq_true_eq, swapIf, ring3]
  by_cases h : c.mem (c.cpu.rsp + 8) % 4 = 0
  · rw [if_pos h, exec_skip, if_neg (by simp [h])]
  · rw [if_neg h, exec_cons (by simp), if_pos (by simp [h])]
    rfl

/-- `iretq` loads the frame of the hardware that stands at the stack pointer. -/
theorem iretq_of_wordsAt {env : Env} {c : Core} (ctx : Context)
    (h : WordsAt c.mem c.cpu.rsp ctx.hardwareFrame) :
    Instr.iretq.step env c = some { c with cpu := { c.cpu with
      toContext := { ctx with gpr := c.cpu.gpr } } } := by
  simp only [Context.hardwareFrame, wordsAt_cons, Nat.add_assoc, Nat.reduceAdd] at h
  obtain ⟨hrip, hcs, hrflags, hrsp, hss, -⟩ := h
  simp only [Instr.step, hrip, hcs, hrflags, hrsp, hss]

theorem exec_popRegs (env : Env) (is : List Instr) {c : Core} {ctx : Context}
    (h : WordsAt c.mem c.cpu.rsp ctx.frame) :
    exec env 0 (popRegs ++ is) c = exec env 0 is
      { c with cpu := { c.cpu with gpr := ctx.gpr, rsp := c.cpu.rsp + 120 } } ∧
    WordsAt c.mem (c.cpu.rsp + 120) ctx.hardwareFrame := by
  obtain ⟨hregs, hhw⟩ := wordsAt_append.mp h
  have hall : (fun r => if r ∈ savedRegs.reverse then ctx.gpr r else c.cpu.gpr r) = ctx.gpr := by
    funext r
    rw [if_pos (List.mem_reverse.mpr (mem_savedRegs r))]
  refine ⟨?_, hhw⟩
  rw [popRegs, exec_pops, popAll_of_wordsAt hregs, hall]
  rfl

/-- The way out of the kernel through an interrupt stub loads the frame that stands at the stack
pointer. -/
theorem exec_restore {env : Env} {c : Core} {ctx : Context}
    (h : WordsAt c.mem c.cpu.rsp ctx.frame) :
    exec env 0 (popRegs ++ [.testCs, .jz 1, .swapgs, .iretq]) c =
      some { c with cpu := { swapIf (ring3 ctx.cs) c.cpu with toContext := ctx } } := by
  obtain ⟨hpop, hhw⟩ := exec_popRegs env [.testCs, .jz 1, .swapgs, .iretq] h
  have hcs : c.mem (c.cpu.rsp + 120 + 8) = ctx.cs := (wordsAt_cons.mp (wordsAt_cons.mp hhw).2).1
  rw [hpop, exec_swap, exec_cons (by simp), iretq_of_wordsAt ctx]
  · simp only [Option.bind_some, exec, hcs]
    unfold swapIf
    cases ring3 ctx.cs <;> rfl
  · show WordsAt c.mem (swapIf _ _).rsp _
    unfold swapIf
    split <;> exact hhw

end CpuLemmas

end Turnix
