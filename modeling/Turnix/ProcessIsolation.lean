import Turnix.StaleMemory
import Turnix.StoreRights

/-!
# Isolation of the processes

Runs of the loader, the stacks and the processes: programs are loaded with `Process::new_from_elf`, tasks get their
stacks, the kernel writes to its heap and to its stacks, and the processes run and write to their pages, in any
order. A store that the page tables do not allow terminates the process, and memory stays as it is.

The system calls and the console are not among the events. A handler stores through the pointer that it gets, also
into the kernel's memory (`UserPointers`), and the console stores to its framebuffer through whatever page tables are
in use (`ConsoleSpace`). Runs with such stores are not isolated.

What this is for is a list of address spaces that have nothing to do with each other: each one is that of its image,
changed by the stores of its own process (`programSpec`). `processes_isolated` says that every run of these events does
just that: what a process reads, and which of its stores are allowed, depends on its own address space only. Where
nothing has been written it reads what was in memory before the first process.

Each process has frames of its own, `Owner.kind`, and so has the kernel; the frame rule `Lives.keep` says that a
process sees nothing of what happens to other frames.
-/

namespace Turnix

open Lib Lib.Paging PanicM

/-! ## What it is for -/

namespace AddressSpace

/-- The program may write to the address. -/
def allows (a : AddressSpace) (va : Nat) : Bool := va < 2 ^ 47 && (a.flags (va / 4096)).any Flags.isWritable

/-- A store. One that is not allowed changes nothing. -/
def store (a : AddressSpace) (va : Nat) (b : UInt8) : AddressSpace :=
  if a.allows va then a.write fun v => if v = va then some b else none else a

/-- What the program reads at an address, if memory was `start` before anything was loaded. -/
def Sees (start : PhysMem) (a : AddressSpace) (va : Nat) (r : Option UInt8) : Prop :=
  if va < 2 ^ 47 ∧ a.flags (va / 4096) ≠ none then
    match a.bytes va with
    | some b => r = some b
    | none => ∃ f ∈ start.frames, r = some (start.ram.byte f (va % 4096))
  else r = none

end AddressSpace

/-! ## Runs -/

/-- Memory and the processes, in the order in which they were loaded. -/
structure Programs where
  mem : PhysMem
  processes : List Process

def Programs.pml4s (m : Programs) : List Frame := m.processes.map Process.pml4

/-- What may happen. `cr3` is the frame in `CR3` at the time. -/
inductive ProgramEvent
  /-- `Process::new_from_elf` -/
  | load (cr3 : Frame) (data : List UInt8)
  /-- `Task::new` maps a stack -/
  | newTask (id : TaskId)
  /-- `Task::new_user` maps a stack for a task of the process with this number -/
  | newUser (n : Nat) (id : TaskId)
  /-- the kernel writes a word to its heap or to a stack -/
  | kernelStore (va : Nat) (word : Entry)
  /-- the process with this number writes a byte -/
  | store (n va : Nat) (b : UInt8)

/-- The address is one of the heap or of the stacks. -/
def kernelData (va : Nat) : Prop := index 3 (va / 4096) = heapSlot ∨ index 3 (va / 4096) = stackSlot

instance (va : Nat) : Decidable (kernelData va) := inferInstanceAs (Decidable (_ ∨ _))

/-- Memory after a store from ring 3. The address must be canonical, too. -/
def afterStore (pml4 : Frame) (ram : Ram) (va : Nat) (b : UInt8) : Ram :=
  (if canonical va then userStore pml4 ram (va, b) else none).getD ram

/-- What happens. There is no step after a panic. -/
def programStep (c : Mapper) (kernel : Frame) (m : Programs) : ProgramEvent → Option Programs
  | .load cr3 data =>
    if (kernel :: m.pml4s).contains cr3 then
      ((Process.newFromElf c cr3 data).result m.mem).map fun r => ⟨r.2, m.processes ++ r.1.toOption.toList⟩
    else none
  | .newTask id =>
    if (id + 1) * 40960 ≤ 2 ^ 39 then
      ((mapKernelTaskStack c kernel id).result m.mem).map fun r => { m with mem := r.2 }
    else none
  | .newUser n id =>
    (m.processes[n]?).bind fun process =>
      if (id + 1) * 40960 ≤ 2 ^ 39 then
        ((mapUserTaskStack c kernel process.pml4 id).result m.mem).map fun r => { m with mem := r.2 }
      else none
  | .kernelStore va word =>
    if kernelData va then
      (walk m.mem.ram 3 kernel (va / 4096)).map fun tr =>
        { m with mem := { m.mem with ram := m.mem.ram.set tr.frame (Fin.ofNat 512 (va % 4096 / 8)) word } }
    else none
  | .store n va b =>
    (m.processes[n]?).map fun process =>
      { m with mem := { m.mem with ram := afterStore process.pml4 m.mem.ram va b } }

/-- What it does to the address spaces. -/
def programSpec (spaces : List AddressSpace) : ProgramEvent → List AddressSpace
  | .load _ data => if loads data then spaces ++ [.load data (elfSegments data)] else spaces
  | .store n va b => spaces.modify n fun a => a.store va b
  | .newTask _ | .newUser _ _ | .kernelStore _ _ => spaces

/-- The processes have these address spaces, and nothing in common. -/
structure Separate (start : PhysMem) (spaces : List AddressSpace) (m : Programs) : Prop where
  count : m.processes.length = spaces.length
  flags : ∀ (n : Nat) (process : Process) (a : AddressSpace), m.processes[n]? = some process →
    spaces[n]? = some a → ∀ p < 2 ^ 35, (view m.mem.ram 3 process.pml4 p).map Prod.snd = a.flags p
  reads : ∀ (n : Nat) (process : Process) (a : AddressSpace), m.processes[n]? = some process →
    spaces[n]? = some a → ∀ va, canonical va = true → a.Sees start va (userRead process.pml4 m.mem.ram va)
  stores : ∀ (n : Nat) (process : Process) (a : AddressSpace), m.processes[n]? = some process →
    spaces[n]? = some a → ∀ va b, canonical va = true →
      (userStore process.pml4 m.mem.ram (va, b)).isSome = a.allows va
  frames : ∀ (n n' : Nat) (process process' : Process), n ≠ n' → m.processes[n]? = some process →
    m.processes[n']? = some process' → ∀ p < 2 ^ 35, ∀ p' < 2 ^ 35, ∀ tr tr',
      walk m.mem.ram 3 process.pml4 p = some tr → walk m.mem.ram 3 process'.pml4 p' = some tr' → tr.frame ≠ tr'.frame

/-! ## The frames of a process -/

/-- A process: what its frames are used for, and its address space. -/
structure Owner where
  pml4 : Frame
  kind : Frame → Kind
  space : AddressSpace

/-- The word is one of the lower half of the process. -/
def Owner.Uses (o : Owner) (f : Frame) (i : Fin 512) : Prop := o.kind f ≠ .other ∧ (f = o.pml4 → i.val < 256)

/-- The lower half is the address space. -/
structure Owner.Lives (start : PhysMem) (o : Owner) (s : PhysMem) : Prop where
  root : o.kind o.pml4 = .root
  shape : Shape lowerHalf o.kind s.ram
  free : Free o.kind s.frames
  user : AllUser lowerHalf o.kind s.ram
  honoured : Honoured s.ram o.pml4
  flags : ∀ p < 2 ^ 35, (view s.ram 3 o.pml4 p).map Prod.snd = o.space.flags p
  bytes : ∀ va < 2 ^ 47, ∀ b, o.space.bytes va = some b → readByte s.ram o.pml4 va = some b
  stale : ∀ va < 2 ^ 47, o.space.bytes va = none → ∀ f flags, view s.ram 3 o.pml4 (va / 4096) = some (f, flags) →
    f ∈ start.frames ∧ readByte s.ram o.pml4 va = some (start.ram.byte f (va % 4096))

open RegionLemmas LoaderLemmas ImageLemmas IsolationLemmas ForkLemmas SpaceLemmas HonouredLemmas

namespace OwnerLemmas

variable {c : Mapper} {kernel : Frame} {start s s' : PhysMem} {o : Owner} {f : Frame} {p va : Nat} {b : UInt8}

theorem Lives.holds (h : o.Lives start s) (hp : p < 2 ^ 35) : Holds lowerHalf o.kind 3 p o.pml4 :=
  holds_lower h.root hp

theorem Lives.kind_data (h : o.Lives start s) (hp : p < 2 ^ 35) {tr : Translation}
    (hw : walk s.ram 3 o.pml4 p = some tr) : o.kind tr.frame = .data p := by
  have hdata := h.shape.walk_data (Nat.le_refl 3) (Lives.holds h hp) hw
  rwa [position_zero, Nat.mod_eq_of_lt (by omega)] at hdata

theorem walk_of_view {ram : Ram} {flags : Flags} {pml4 : Frame} (h : view ram 3 pml4 p = some (f, flags)) :
    ∃ tr, walk ram 3 pml4 p = some tr ∧ tr.frame = f ∧ tr.flags = flags := by
  obtain ⟨tr, hw, htr⟩ := Option.map_eq_some_iff.mp h
  cases htr
  exact ⟨tr, hw, rfl, rfl⟩

/-- Tables and pages stay as they are; every byte is either as it was or as in the new address space. -/
theorem Lives.change (h : o.Lives start s) {a : AddressSpace} (hflags : a.flags = o.space.flags)
    (hinner : ∀ f i l k, Inner lowerHalf o.kind l k f i → s'.ram f i = s.ram f i) (hleft : s'.frames <:+ s.frames)
    (hbytes : ∀ va < 2 ^ 47, a.bytes va = o.space.bytes va ∧ readByte s'.ram o.pml4 va = readByte s.ram o.pml4 va ∨
      ∃ b, a.bytes va = some b ∧ readByte s'.ram o.pml4 va = some b) :
    Owner.Lives start { o with space := a } s' := by
  have hwalk : ∀ p < 2 ^ 35, walk s'.ram 3 o.pml4 p = walk s.ram 3 o.pml4 p := fun p hp =>
    h.shape.walk_congr hinner (Nat.le_refl 3) (Lives.holds h hp)
  have hview : ∀ p < 2 ^ 35, view s'.ram 3 o.pml4 p = view s.ram 3 o.pml4 p := fun p hp =>
    congrArg (Option.map _) (hwalk p hp)
  constructor
  case root => exact h.root
  case shape =>
    refine h.shape.change (.refl o.kind) fun t i => ?_
    by_cases hin : ∃ l k, Inner lowerHalf o.kind l k t i
    · obtain ⟨l, k, hin⟩ := hin
      exact .inl ⟨rfl, hinner t i l k hin⟩
    · exact .inr (fits_of_no_table fun l k h' => hin ⟨l, k, h'⟩)
  case free => exact ⟨h.free.nodup.sublist hleft.sublist, fun f hf => h.free.other f (hleft.subset hf)⟩
  case user =>
    intro t i l k hin
    rw [hinner t i l k hin]
    exact h.user t i l k hin
  case honoured =>
    intro p hp tr hw
    rw [hwalk p hp] at hw
    exact h.honoured p hp tr hw
  case flags =>
    intro p hp
    rw [hview p hp, hflags]
    exact h.flags p hp
  case bytes =>
    intro va hva b hb
    rcases hbytes va hva with ⟨hsame, hread⟩ | ⟨b', hb', hread⟩
    · rw [hread]
      exact h.bytes va hva b (hsame.symm.trans hb)
    · rw [hread, ← hb']
      exact hb
  case stale =>
    intro va hva hb f flags hv
    rcases hbytes va hva with ⟨hsame, hread⟩ | ⟨b', hb', -⟩
    · rw [hview _ (by omega)] at hv
      rw [hread]
      exact h.stale va hva (hsame.symm.trans hb) f flags hv
    · rw [hb] at hb'
      cases hb'

/-- The frame rule: a step that does not touch the words of the process. -/
theorem Lives.keep (h : o.Lives start s) (hsame : ∀ f i, o.Uses f i → s'.ram f i = s.ram f i)
    (hleft : s'.frames <:+ s.frames) : o.Lives start s' := by
  have hinner : ∀ f i l k, Inner lowerHalf o.kind l k f i → s'.ram f i = s.ram f i := by
    intro f i l k hin
    refine hsame f i ⟨hin.ne_other, ?_⟩
    rintro rfl
    rcases hin with htable | ⟨-, -, -, hlow⟩
    · rw [h.root] at htable
      cases htable
    · exact hlow
  refine Lives.change h rfl hinner hleft fun va hva => .inl ⟨rfl, ?_⟩
  have hview : view s'.ram 3 o.pml4 (va / 4096) = view s.ram 3 o.pml4 (va / 4096) :=
    congrArg (Option.map _) (h.shape.walk_congr hinner (Nat.le_refl 3) (Lives.holds h (by omega)))
  refine readByte_congr hview fun f flags hv => funext fun i => hsame f i ?_
  obtain ⟨tr, hw, rfl, -⟩ := walk_of_view hv
  have hdata := Lives.kind_data h (by omega) hw
  refine ⟨ne_other_of_data hdata, ?_⟩
  rintro heq
  rw [heq, h.root] at hdata
  cases hdata

/-! ## What a process can do -/

/-- Nothing of the upper half can be accessed from ring 3. -/
def Hidden (ram : Ram) (pml4 : Frame) : Prop := ∀ i : Fin 512, 256 ≤ i.val → (ram pml4 i).flags.isUser = false

theorem not_user (hhidden : Hidden s.ram o.pml4) (hva : canonical va = true) (hhigh : ¬ va < 2 ^ 47)
    {tr : Translation} (hw : walk s.ram 3 o.pml4 (va / 4096) = some tr) : tr.user = false := by
  have hupper := (canonical_iff.mp hva).resolve_left hhigh
  rw [← Bool.not_eq_true]
  intro huser
  have hroot := user_of_root hw huser
  rw [hhidden _ (index_upper hupper.1 hupper.2)] at hroot
  cases hroot

theorem Lives.walk_user (h : o.Lives start s) (hp : p < 2 ^ 35) {tr : Translation}
    (hw : walk s.ram 3 o.pml4 p = some tr) : tr.user = true :=
  h.user.walk h.shape (Nat.le_refl 3) (Lives.holds h hp) hw

theorem Lives.flags_of_walk (h : o.Lives start s) (hp : p < 2 ^ 35) :
    (walk s.ram 3 o.pml4 p).map (·.flags) = o.space.flags p := by
  rw [← h.flags p hp]
  unfold view
  rw [Option.map_map]
  rfl

/-- A page can be written exactly if its leaf says so. -/
theorem Lives.writable_eq (h : o.Lives start s) (hp : p < 2 ^ 35) {tr : Translation}
    (hw : walk s.ram 3 o.pml4 p = some tr) : tr.writable = tr.flags.isWritable := by
  rcases hflag : tr.flags.isWritable with _ | _
  · rw [← Bool.not_eq_true]
    intro hwritable
    rw [walk_writable hw hwritable] at hflag
    cases hflag
  · exact h.honoured p hp tr hw hflag

/-- The result of a store. -/
theorem Lives.userStore_eq (h : o.Lives start s) (hhidden : Hidden s.ram o.pml4) (hva : canonical va = true) :
    userStore o.pml4 s.ram (va, b) = if o.space.allows va then
      (walk s.ram 3 o.pml4 (va / 4096)).map fun tr => s.ram.setByte tr.frame (va % 4096) b else none := by
  unfold userStore AddressSpace.allows
  dsimp only
  by_cases hlow : va < 2 ^ 47
  · have hp : va / 4096 < 2 ^ 35 := by omega
    rw [decide_eq_true hlow, Bool.true_and, ← Lives.flags_of_walk h hp]
    rcases hw : walk s.ram 3 o.pml4 (va / 4096) with _ | tr
    · rfl
    · dsimp only
      rw [Lives.walk_user h hp hw, Lives.writable_eq h hp hw]
      rfl
  · rw [decide_eq_false hlow, Bool.false_and]
    rcases hw : walk s.ram 3 o.pml4 (va / 4096) with _ | tr
    · rfl
    · dsimp only
      rw [not_user hhidden hva hlow hw]
      rfl

theorem Lives.stores (h : o.Lives start s) (hhidden : Hidden s.ram o.pml4) (hva : canonical va = true) :
    (userStore o.pml4 s.ram (va, b)).isSome = o.space.allows va := by
  rw [Lives.userStore_eq h hhidden hva]
  rcases hallow : o.space.allows va with _ | _
  · rfl
  · obtain ⟨hlow, hflags⟩ := Bool.and_eq_true_iff.mp hallow
    rw [← Lives.flags_of_walk h (by have := of_decide_eq_true hlow; omega)] at hflags
    rw [if_pos rfl, Option.isSome_map]
    rcases hw : walk s.ram 3 o.pml4 (va / 4096) with _ | tr
    · rw [hw] at hflags
      cases hflags
    · rfl

theorem Lives.reads (h : o.Lives start s) (hhidden : Hidden s.ram o.pml4) (hva : canonical va = true) :
    o.space.Sees start va (userRead o.pml4 s.ram va) := by
  unfold AddressSpace.Sees
  have hnone : walk s.ram 3 o.pml4 (va / 4096) = none → userRead o.pml4 s.ram va = none := by
    intro hw
    unfold userRead
    rw [hw]
  by_cases hlow : va < 2 ^ 47
  · have hp : va / 4096 < 2 ^ 35 := by omega
    have hflags := Lives.flags_of_walk h hp
    rcases hw : walk s.ram 3 o.pml4 (va / 4096) with _ | tr
    · rw [hw] at hflags
      rw [if_neg fun hboth => hboth.2 hflags.symm]
      exact hnone hw
    · rw [hw] at hflags
      have hread : userRead o.pml4 s.ram va = readByte s.ram o.pml4 va := by
        unfold userRead readByte
        rw [hw]
        dsimp only
        rw [if_pos (Lives.walk_user h hp hw)]
        rfl
      rw [if_pos ⟨hlow, by rw [← hflags]; exact Option.some_ne_none _⟩, hread]
      rcases hb : o.space.bytes va with _ | b
      · have hv : view s.ram 3 o.pml4 (va / 4096) = some (tr.frame, tr.flags) := by
          unfold view
          rw [hw]
          rfl
        obtain ⟨hf, hstale⟩ := h.stale va hlow hb _ _ hv
        exact ⟨tr.frame, hf, hstale⟩
      · exact h.bytes va hlow b hb
  · rw [if_neg fun hboth => hlow hboth.1]
    rcases hw : walk s.ram 3 o.pml4 (va / 4096) with _ | tr
    · exact hnone hw
    · unfold userRead
      rw [hw]
      dsimp only
      rw [not_user hhidden hva hlow hw]
      rfl

/-- A store that is allowed. -/
theorem Lives.store (h : o.Lives start s) (hallow : o.space.allows va = true) {tr : Translation}
    (hw : walk s.ram 3 o.pml4 (va / 4096) = some tr) :
    Owner.Lives start { o with space := o.space.store va b }
      { s with ram := s.ram.setByte tr.frame (va % 4096) b } := by
  have hva : va < 2 ^ 47 := of_decide_eq_true (Bool.and_eq_true_iff.mp hallow).1
  have hdata := Lives.kind_data h (by omega) hw
  have hstore : o.space.store va b = o.space.write fun v => if v = va then some b else none := if_pos hallow
  refine Lives.change h (by rw [hstore]; rfl) (fun f i l k hin => ?_) List.suffix_rfl fun a ha => ?_
  · have hsame : s.ram.setBytes tr.frame (va % 4096) [b] f = s.ram f := setBytes_of_inner hdata hin
    exact congrFun hsame i
  · have hread : readByte (s.ram.setBytes tr.frame (va % 4096) [b]) o.pml4 a = _ :=
      readByte_setBytes h.shape h.root hva hw (by rw [List.length_singleton]; omega) ha
    rw [hstore]
    by_cases heq : a = va
    · refine .inr ⟨b, ?_, ?_⟩
      · show Option.or (if a = va then some b else none) _ = _
        rw [if_pos heq]
        rfl
      · refine hread.trans ?_
        unfold rangeBytes
        rw [List.length_singleton, if_pos (by omega), heq]
        dsimp only
        rw [Nat.sub_self]
        rfl
    · refine .inl ⟨?_, ?_⟩
      · show Option.or (if a = va then some b else none) _ = _
        rw [if_neg heq, Option.none_or]
      · refine hread.trans ?_
        unfold rangeBytes
        rw [List.length_singleton, if_neg (by omega), Option.none_or]

end OwnerLemmas

/-! ## The frames of the kernel -/

/-- The entries of PML4s through which the kernel maps pages for itself. -/
def kernelSlots (kernel r : Frame) (i : Fin 512) : Prop := i = stackSlot ∨ (r = kernel ∧ i = heapSlot)

/-- The heap and the stacks have frames of their own. All PML4s have the entries of `top` in the upper half. -/
structure KernelInv (kernel : Frame) (top : Table) (pml4s : List Frame) (kind : Frame → Kind) (s : PhysMem) :
    Prop where
  shape : Shape (kernelSlots kernel) kind s.ram
  free : Free kind s.frames
  roots : ∀ r ∈ kernel :: pml4s, kind r = .root
  slot : s.frames ≠ [] → (top stackSlot).flags.union kernelFlags = (top stackSlot).flags
  upper : ∀ r ∈ kernel :: pml4s, ∀ i, 256 ≤ i.val → s.ram r i = top i

/-- What the kernel does to memory when it works for itself: it writes to frames that are its own, or of `pool`,
and not to PML4s. -/
structure KernelWork (pool : List Frame) (kind : Frame → Kind) (s : PhysMem) (kind' : Frame → Kind)
    (s' : PhysMem) : Prop where
  ext : Extends kind kind'
  left : s'.frames <:+ s.frames
  taken : ∀ f, kind' f ≠ .other → kind f ≠ .other ∨ f ∈ pool
  roots : ∀ r, kind r = .root → s'.ram r = s.ram r
  apart : ∀ f, kind' f = .other → s'.ram f = s.ram f

namespace KernelLemmas

variable {c : Mapper} {kernel r f frame : Frame} {top : Table} {pml4s pool frames : List Frame}
  {kind kind' kind'' : Frame → Kind} {s s' s'' : PhysMem} {page : Nat}

theorem KernelWork.refl (pool : List Frame) (kind : Frame → Kind) (s : PhysMem) : KernelWork pool kind s kind s where
  ext := .refl kind
  left := List.suffix_rfl
  taken _ hf := .inl hf
  roots _ _ := rfl
  apart _ _ := rfl

theorem KernelWork.trans (h : KernelWork pool kind s kind' s') (h' : KernelWork pool kind' s' kind'' s'') :
    KernelWork pool kind s kind'' s'' where
  ext := h.ext.trans h'.ext
  left := h'.left.trans h.left
  taken f hf := (h'.taken f hf).elim (h.taken f) .inr
  roots r hr := (h'.roots r (h.ext.root hr)).trans (h.roots r hr)
  apart f hf := (h'.apart f hf).trans (h.apart f (Extends.other h'.ext hf))

/-- A frame that was neither used by the kernel nor free stays as it is. -/
theorem KernelWork.kept (h : KernelWork pool kind s kind' s') (hf : kind f = .other) (hfree : f ∉ pool) :
    kind' f = .other ∧ s'.ram f = s.ram f := by
  have hother : kind' f = .other := by
    by_contra hne
    rcases h.taken f hne with hused | hpool
    · exact hused hf
    · exact hfree hpool
  exact ⟨hother, h.apart f hother⟩

/-- What holds as long as the PML4s are not written. -/
theorem KernelInv.work (h : KernelInv kernel top pml4s kind s) (hwork : KernelWork pool kind s kind' s')
    (hs : Shape (kernelSlots kernel) kind' s'.ram) (hfree : Free kind' s'.frames) :
    KernelInv kernel top pml4s kind' s' where
  shape := hs
  free := hfree
  roots r hr := hwork.ext.root (h.roots r hr)
  slot hne := h.slot fun hnil => hne (List.suffix_nil.mp (hnil ▸ hwork.left))
  upper r hr i hi := by
    rw [hwork.roots r (h.roots r hr)]
    exact h.upper r hr i hi

theorem KernelWork.of_grows {cover : Frame → Fin 512 → Prop}
    (h : Grows cover pool r (fun i => i = stackSlot) kind s kind' s')
    (hstack : s'.ram r stackSlot = s.ram r stackSlot) : KernelWork pool kind s kind' s' where
  ext := h.ext
  left := h.left
  taken := h.taken
  roots r' hr' := by
    funext i
    by_cases heq : r' = r ∧ i = stackSlot
    · rw [heq.1, heq.2]
      exact hstack
    · exact h.kept r' i hr' heq
  apart := h.apart

/-! ## Stacks -/

/-- A page of a stack is mapped, through any PML4. The entry of the stacks has its flags already, so the PML4
stays as it is. -/
theorem ends_mapTo_kernel (hc : c.Lawful) (h : KernelInv kernel top pml4s kind s) (hr : r ∈ kernel :: pml4s)
    (hspare : Spare kind page frame s.frames) (hframe : frame ∈ pool) (hpool : s.frames ⊆ pool)
    (hslot : (top stackSlot).flags.union kernelFlags = (top stackSlot).flags) (hpage : index 3 page = stackSlot)
    {Q : Except MapToError Unit → PhysMem → Prop} {E : PhysMem → Prop}
    (hQ : ∀ kind' used out s', MapTo page frame kernelFlags 3 r s.ram s.frames out →
      MapEffect (kernelSlots kernel) kind kind' page kernelFlags frame 3 r s.ram s.frames used out →
      s'.ram = out.ram → s'.frames = out.frames → KernelInv kernel top pml4s kind' s' →
      KernelWork pool kind s kind' s' → Q out.result s') :
    Ends (mapTo c r page frame kernelFlags) s Q E := by
  have hroot := h.roots r hr
  have hentry : s.ram r stackSlot = top stackSlot := h.upper r hr stackSlot (by decide)
  refine ends_mapTo hc h.shape (holds_root hroot (.inl hpage)) hspare (by decide)
    (fun hhuge => absurd hhuge (by decide)) fun kind' used out writes hwrites hmap heffect => ?_
  have hgrows : Grows (kernelSlots kernel) pool r (fun i => i = stackSlot) kind s kind' _ :=
    grows_mapTo h.shape hroot hspare hpage hframe hpool hwrites heffect
  have hrel := heffect.entry (by decide)
  rw [hpage, hentry] at hrel
  have hwork := KernelWork.of_grows hgrows ((Relinked.same hrel hslot).trans hentry.symm)
  exact hQ kind' used out _ hmap heffect rfl rfl (KernelInv.work h hwork hgrows.shape hgrows.free) hwork

theorem mapTo_kernel (hc : c.Lawful) (h : KernelInv kernel top pml4s kind s) (hr : r ∈ kernel :: pml4s)
    (hspare : Spare kind page frame s.frames) (hframe : frame ∈ pool) (hpool : s.frames ⊆ pool)
    (hslot : (top stackSlot).flags.union kernelFlags = (top stackSlot).flags) (hpage : index 3 page = stackSlot) :
    Ends (mapTo c r page frame kernelFlags) s (fun _ s' => ∃ kind', KernelInv kernel top pml4s kind' s' ∧
      KernelWork pool kind s kind' s' ∧ Spare kind' page frame s'.frames) fun _ => True := by
  refine ends_mapTo_kernel hc h hr hspare hframe hpool hslot hpage
    fun kind' used out s' _ heffect _ hframes hinv hwork => ⟨kind', hinv, hwork, ?_⟩
  rw [hframes]
  exact heffect.spare hspare

/-- A page of a stack is mapped in the kernel's tables, to the first of the frames that are left. -/
theorem mapTo_kernel_taken (hc : c.Lawful) (h : KernelInv kernel top pml4s kind s)
    (hframes : s.frames = frame :: frames) (hpool : s.frames ⊆ pool) (hpage : index 3 page = stackSlot) :
    Ends (mapTo c kernel page frame kernelFlags) { s with frames := frames }
      (fun _ s' => ∃ kind', KernelInv kernel top pml4s kind' s' ∧ KernelWork pool kind s kind' s' ∧
        Spare kind' page frame s'.frames ∧ s'.frames ⊆ pool) fun _ => True := by
  have hfree : Free kind (frame :: frames) := hframes ▸ h.free
  have htake : KernelWork pool kind s kind { s with frames := frames } :=
    { KernelWork.refl pool kind s with left := hframes ▸ List.suffix_cons frame frames }
  have hsub : frames ⊆ pool := fun f hf => hpool (hframes ▸ List.mem_cons_of_mem _ hf)
  refine (mapTo_kernel hc (KernelInv.work h htake h.shape hfree.tail) List.mem_cons_self hfree.take
    (hpool (hframes ▸ List.mem_cons_self)) hsub (h.slot (hframes ▸ List.cons_ne_nil frame frames)) hpage).mono ?_
    fun _ _ => trivial
  rintro _ s' ⟨kind', h', hwork, hspare⟩
  exact ⟨kind', h', KernelWork.trans htake hwork, hspare, fun f hf => hsub (hwork.left.subset hf)⟩

/-- `Task::new`. -/
theorem mapKernelTaskStack_work (hc : c.Lawful) (h : KernelInv kernel top pml4s kind s) {id : TaskId}
    (hid : (id + 1) * 40960 ≤ 2 ^ 39) :
    Ends (mapKernelTaskStack c kernel id) s (fun _ s' => ∃ kind', KernelInv kernel top pml4s kind' s' ∧
      KernelWork s.frames kind s kind' s') fun _ => True := by
  refine @ends_mapStackPages c kernel 8 (stackPage id) (fun _ s' => ∃ kind', KernelInv kernel top pml4s kind' s' ∧
    KernelWork s.frames kind s kind' s') ?_ 8 0 s rfl ⟨kind, h, KernelWork.refl _ kind s⟩
  rintro n s₁ frame frames hn ⟨kind₁, h₁, hwork₁⟩ hframes
  refine (mapTo_kernel_taken hc h₁ hframes hwork₁.left.subset (stackPages_slot hid hn)).mono ?_ fun _ _ => trivial
  rintro _ s₂ ⟨kind₂, h₂, hwork₂, -⟩
  exact ⟨kind₂, h₂, KernelWork.trans hwork₁ hwork₂⟩

/-- `Task::new_user`. -/
theorem mapUserTaskStack_work (hc : c.Lawful) (h : KernelInv kernel top pml4s kind s) (hr : r ∈ pml4s)
    {id : TaskId} (hid : (id + 1) * 40960 ≤ 2 ^ 39) :
    Ends (mapUserTaskStack c kernel r id) s (fun _ s' => ∃ kind', KernelInv kernel top pml4s kind' s' ∧
      KernelWork s.frames kind s kind' s') fun _ => True := by
  refine @ends_mapUserTaskPages c kernel r 8 (stackPage id) (fun _ s' => ∃ kind', KernelInv kernel top pml4s kind' s' ∧
    KernelWork s.frames kind s kind' s') ?_ 8 0 s rfl ⟨kind, h, KernelWork.refl _ kind s⟩
  rintro n s₁ frame frames hn ⟨kind₁, h₁, hwork₁⟩ hframes
  have hslot := h₁.slot (hframes ▸ List.cons_ne_nil frame frames)
  have hframe : frame ∈ s.frames := hwork₁.left.subset (hframes ▸ List.mem_cons_self)
  refine (mapTo_kernel_taken hc h₁ hframes hwork₁.left.subset (stackPages_slot hid hn)).mono ?_ fun _ _ => trivial
  rintro _ s₂ ⟨kind₂, h₂, hwork₂, hspare, hsub⟩
  refine (mapTo_kernel hc h₂ (List.mem_cons_of_mem _ hr) hspare hframe hsub hslot (stackPages_slot hid hn)).mono ?_
    fun _ _ => trivial
  rintro _ s₃ ⟨kind₃, h₃, hwork₃, -⟩
  exact ⟨kind₃, h₃, KernelWork.trans hwork₁ (KernelWork.trans hwork₂ hwork₃)⟩

/-! ## The other steps -/

/-- Frames that the kernel uses stay as they are. -/
theorem KernelInv.keep (h : KernelInv kernel top pml4s kind s) (hsame : ∀ f, kind f ≠ .other → s'.ram f = s.ram f)
    (hleft : s'.frames <:+ s.frames) : KernelInv kernel top pml4s kind s' where
  shape := by
    refine h.shape.change (.refl kind) fun t i => ?_
    by_cases hused : kind t = .other
    · exact .inr (fits_of_no_table fun l k hin => hin.ne_other hused)
    · exact .inl ⟨rfl, by rw [hsame t hused]⟩
  free := ⟨h.free.nodup.sublist hleft.sublist, fun f hf => h.free.other f (hleft.subset hf)⟩
  roots := h.roots
  slot hne := h.slot fun hnil => hne (List.suffix_nil.mp (hnil ▸ hleft))
  upper r hr i hi := by
    rw [hsame r (ne_other_of_root (h.roots r hr))]
    exact h.upper r hr i hi

/-- The kernel writes to its heap or to a stack. -/
theorem KernelInv.store (h : KernelInv kernel top pml4s kind s) {va : Nat} (hva : kernelData va) {tr : Translation}
    (hw : walk s.ram 3 kernel (va / 4096) = some tr) (i : Fin 512) (word : Entry) :
    KernelInv kernel top pml4s kind { s with ram := s.ram.set tr.frame i word } ∧
      ∀ pool, KernelWork pool kind s kind { s with ram := s.ram.set tr.frame i word } := by
  have hslot : kernelSlots kernel kernel (index 3 (va / 4096)) := hva.elim (fun h => .inr ⟨rfl, h⟩) .inl
  have hdata := h.shape.walk_data (Nat.le_refl 3) (holds_root (h.roots kernel List.mem_cons_self) hslot) hw
  have hwork : ∀ pool, KernelWork pool kind s kind { s with ram := s.ram.set tr.frame i word } := by
    intro pool
    refine { KernelWork.refl pool kind s with roots := fun r hr => ?_, apart := fun f hf => ?_ }
    · refine Ram.set_of_frame_ne ?_ _ _
      rintro rfl
      rw [hr] at hdata
      cases hdata
    · refine Ram.set_of_frame_ne ?_ _ _
      rintro rfl
      exact ne_other_of_data hdata hf
  refine ⟨KernelInv.work h (hwork []) ?_ h.free, hwork⟩
  refine h.shape.change (.refl kind) fun t j => ?_
  by_cases ht : t = tr.frame
  · refine .inr (fits_of_no_table fun l k hin => ?_)
    rcases hin with htable | ⟨-, -, hroot, -⟩
    · rw [ht, hdata] at htable
      cases htable
    · rw [ht, hdata] at hroot
      cases hroot
  · exact .inl ⟨rfl, congrFun (Ram.set_of_frame_ne ht _ _) j⟩

/-- A new PML4 with the upper half of the others. -/
theorem KernelInv.add (h : KernelInv kernel top pml4s kind s) (hf : kind f = .other) (hfree : f ∉ s.frames)
    (hupper : ∀ i : Fin 512, 256 ≤ i.val → s.ram f i = top i) :
    KernelInv kernel top (pml4s ++ [f]) (Function.update kind f .root) s := by
  have hext : Extends kind (Function.update kind f .root) := by
    intro g hg
    refine Function.update_of_ne ?_ _ _
    rintro rfl
    exact hg hf
  have hkernel := h.roots kernel List.mem_cons_self
  have hne : f ≠ kernel := by
    rintro rfl
    rw [hf] at hkernel
    cases hkernel
  constructor
  case shape =>
    refine h.shape.change hext fun t i => ?_
    by_cases ht : t = f
    · subst ht
      refine .inr ⟨fun l k hin => ?_, fun k hin => ?_⟩
      · rcases hin with htable | ⟨hl, rfl, -, rfl | ⟨heq, -⟩⟩
        · rw [Function.update_self] at htable
          cases htable
        · obtain rfl : l = 2 := Nat.succ.inj hl
          rw [hupper stackSlot (by decide), ← h.upper kernel List.mem_cons_self stackSlot (by decide)]
          exact ((h.shape kernel stackSlot).inner 2 0 (.inr ⟨rfl, rfl, hkernel, .inl rfl⟩)).mono hext
        · exact absurd heq hne
      · rw [Function.update_self] at hin
        cases hin
    · exact .inl ⟨Function.update_of_ne ht _ _, rfl⟩
  case free =>
    refine ⟨h.free.nodup, fun g hg => ?_⟩
    rw [Function.update_of_ne (by rintro rfl; exact hfree hg)]
    exact h.free.other g hg
  case roots =>
    intro r hr
    rw [← List.cons_append] at hr
    rcases List.mem_append.mp hr with hr | hr
    · exact hext.root (h.roots r hr)
    · rw [List.mem_singleton.mp hr, Function.update_self]
  case slot => exact h.slot
  case upper =>
    intro r hr i hi
    rw [← List.cons_append] at hr
    rcases List.mem_append.mp hr with hr | hr
    · exact h.upper r hr i hi
    · rw [List.mem_singleton.mp hr]
      exact hupper i hi

/-- The state after boot. -/
theorem kernelInv_init (h : SpaceInv kernel top [] kind s) : KernelInv kernel top [] kind s where
  shape t i := by
    refine ⟨fun l k hin => (h.shape t i).inner l k ?_, fun k hk => (h.shape t i).leaf k hk⟩
    rcases hin with htable | ⟨hl, hk, hroot, hslot⟩
    · exact .inl htable
    · exact .inr ⟨hl, hk, hroot, hslot.elim .inl fun hheap => .inr (.inl hheap)⟩
  free := h.free
  roots := h.roots
  slot := h.slot
  upper := h.upper

end KernelLemmas

/-! ## The invariant -/

/-- The processes and the kernel have frames of their own, and a free frame is as it was. `kind` is for the
kernel; `start` is memory before the first process. -/
structure ProgramInv (kernel : Frame) (start : PhysMem) (spaces : List AddressSpace) (m : Programs)
    (kind : Frame → Kind) (owners : List Owner) : Prop where
  kernel : KernelInv kernel (start.ram kernel) m.pml4s kind m.mem
  pml4s : owners.map Owner.pml4 = m.pml4s
  spaces : owners.map Owner.space = spaces
  lives : ∀ o ∈ owners, o.Lives start m.mem
  apart : ∀ (i j : Nat) (o o' : Owner), i ≠ j → owners[i]? = some o → owners[j]? = some o' →
    ∀ f, o.kind f ≠ .other → o'.kind f = .other
  own : ∀ o ∈ owners, ∀ f, o.kind f ≠ .other → f ≠ o.pml4 → kind f = .other
  fresh : ∀ f ∈ m.mem.frames, m.mem.ram f = start.ram f
  left : m.mem.frames <:+ start.frames

open OwnerLemmas KernelLemmas

namespace ProgramLemmas

variable {c : Mapper} {kernel f : Frame} {start mem : PhysMem} {spaces : List AddressSpace} {m m' : Programs}
  {kind kind' : Frame → Kind} {owners : List Owner} {o : Owner} {n va : Nat} {b : UInt8} {process : Process}

/-- No frame of a process is free. -/
theorem Lives.not_free {s : PhysMem} (h : o.Lives start s) (hf : o.kind f ≠ .other) : f ∉ s.frames :=
  fun hfree => hf (h.free.other f hfree)

/-- The owner of a process. -/
theorem ProgramInv.owner (h : ProgramInv kernel start spaces m kind owners) (hp : m.processes[n]? = some process) :
    ∃ o, owners[n]? = some o ∧ o.pml4 = process.pml4 ∧ spaces[n]? = some o.space := by
  have hpml4 : (owners.map Owner.pml4)[n]? = some process.pml4 := by
    rw [h.pml4s, Programs.pml4s, List.getElem?_map, hp]
    rfl
  rw [List.getElem?_map] at hpml4
  obtain ⟨o, ho, heq⟩ := Option.map_eq_some_iff.mp hpml4
  refine ⟨o, ho, heq, ?_⟩
  rw [← h.spaces, List.getElem?_map, ho]
  rfl

theorem ProgramInv.mem_pml4s (h : ProgramInv kernel start spaces m kind owners) (ho : o ∈ owners) :
    o.pml4 ∈ kernel :: m.pml4s :=
  List.mem_cons_of_mem _ (h.pml4s ▸ List.mem_map_of_mem ho)

/-! ## Steps of the kernel -/

/-- The kernel works for itself. -/
theorem ProgramInv.work (h : ProgramInv kernel start spaces m kind owners)
    (hinv : KernelInv kernel (start.ram kernel) m.pml4s kind' mem)
    (hwork : KernelWork m.mem.frames kind m.mem kind' mem) :
    ProgramInv kernel start spaces { m with mem := mem } kind' owners where
  kernel := hinv
  pml4s := h.pml4s
  spaces := h.spaces
  lives o ho := by
    refine Lives.keep (h.lives o ho) (fun f i huses => ?_) hwork.left
    by_cases hf : f = o.pml4
    · rw [hf, hwork.roots _ (h.kernel.roots _ (ProgramInv.mem_pml4s h ho))]
    · have hother := h.own o ho f huses.1 hf
      rw [(KernelWork.kept hwork hother (Lives.not_free (h.lives o ho) huses.1)).2]
  apart := h.apart
  own o ho f hf hne :=
    (KernelWork.kept hwork (h.own o ho f hf hne) (Lives.not_free (h.lives o ho) hf)).1
  fresh f hf := by
    rw [hwork.apart f (hinv.free.other f hf)]
    exact h.fresh f (hwork.left.subset hf)
  left := hwork.left.trans h.left

/-! ## Stores -/

/-- The pages of the process are the only ones that change, and they change as in the address space. -/
theorem Lives.afterStore {s : PhysMem} (h : o.Lives start s) (hhidden : Hidden s.ram o.pml4) (va : Nat) (b : UInt8) :
    Owner.Lives start { o with space := o.space.store va b } { s with ram := afterStore o.pml4 s.ram va b } ∧
      ∀ f, o.kind f = .other ∨ f = o.pml4 → afterStore o.pml4 s.ram va b f = s.ram f := by
  unfold Turnix.afterStore
  rcases hallow : o.space.allows va with _ | _
  · have hstore : o.space.store va b = o.space := if_neg (by rw [hallow]; exact Bool.false_ne_true)
    have hsame : (if canonical va then userStore o.pml4 s.ram (va, b) else none).getD s.ram = s.ram := by
      by_cases hva : canonical va = true
      · rw [if_pos hva, Lives.userStore_eq h hhidden hva, hallow]
        rfl
      · rw [if_neg hva]
        rfl
    rw [hstore, hsame]
    exact ⟨h, fun _ _ => rfl⟩
  · have hlow : va < 2 ^ 47 := of_decide_eq_true (Bool.and_eq_true_iff.mp hallow).1
    have hva : canonical va = true := canonical_iff.mpr (.inl hlow)
    have hstores := Lives.stores (b := b) h hhidden hva
    rw [if_pos hva]
    rw [Lives.userStore_eq h hhidden hva, hallow, if_pos rfl] at hstores ⊢
    rw [Option.isSome_map] at hstores
    obtain ⟨tr, hw⟩ := Option.isSome_iff_exists.mp hstores
    rw [hw]
    have hdata := Lives.kind_data h (by omega) hw
    refine ⟨Lives.store h hallow hw, fun f hf => Ram.setByte_of_frame_ne ?_⟩
    rintro rfl
    rcases hf with hf | hf
    · exact ne_other_of_data hdata hf
    · rw [hf, h.root] at hdata
      cases hdata

theorem ProgramInv.hidden (h : ProgramInv kernel start spaces m kind owners) (hhidden : Hidden start.ram kernel)
    (ho : o ∈ owners) : Hidden m.mem.ram o.pml4 := by
  intro i hi
  rw [h.kernel.upper _ (ProgramInv.mem_pml4s h ho) i hi]
  exact hhidden i hi

/-- The owner of a place after the address space of one of them has changed. -/
theorem owner_of_modify {g : Owner → AddressSpace} {j : Nat} {o' : Owner}
    (h : (owners.modify n fun o => { o with space := g o })[j]? = some o') :
    ∃ o, owners[j]? = some o ∧ o'.kind = o.kind ∧ o'.pml4 = o.pml4 ∧
      o' = if n = j then { o with space := g o } else o := by
  rw [List.getElem?_modify] at h
  obtain ⟨o, ho, rfl⟩ := Option.map_eq_some_iff.mp h
  refine ⟨o, ho, ?_, ?_, rfl⟩
  · split <;> rfl
  · split <;> rfl

/-- A process writes to its memory. -/
theorem ProgramInv.store (h : ProgramInv kernel start spaces m kind owners) (hhidden : Hidden start.ram kernel)
    (ho : owners[n]? = some o) :
    ProgramInv kernel start (spaces.modify n fun a => a.store va b)
      { m with mem := { m.mem with ram := afterStore o.pml4 m.mem.ram va b } } kind
      (owners.modify n fun o => { o with space := o.space.store va b }) := by
  have hmem := List.mem_of_getElem? ho
  obtain ⟨hstore, hsame⟩ := Lives.afterStore (h.lives o hmem) (ProgramInv.hidden h hhidden hmem) va b
  constructor
  case kernel =>
    refine KernelInv.keep h.kernel (fun f hf => hsame f ?_) List.suffix_rfl
    by_contra hnot
    rw [not_or] at hnot
    exact hf (h.own o hmem f hnot.1 hnot.2)
  case pml4s =>
    refine Eq.trans ?_ h.pml4s
    exact (map_modify (p := Owner.pml4) (q := id)
      (g := fun o => { o with space := o.space.store va b }) fun _ => rfl).trans (List.modify_id _ _)
  case spaces =>
    rw [← h.spaces]
    exact map_modify fun _ => rfl
  case lives =>
    intro o' ho'
    obtain ⟨j, hj⟩ := List.mem_iff_getElem?.mp ho'
    obtain ⟨o₁, ho₁, -, -, rfl⟩ := owner_of_modify hj
    by_cases heq : n = j
    · rw [if_pos heq]
      rw [← heq, ho] at ho₁
      cases ho₁
      exact hstore
    · rw [if_neg heq]
      refine Lives.keep (h.lives o₁ (List.mem_of_getElem? ho₁)) (fun f i huses => ?_) List.suffix_rfl
      exact congrFun (hsame f (.inl (h.apart j n o₁ o (Ne.symm heq) ho₁ ho f huses.1))) i
  case apart =>
    intro i j o₁ o₂ hne h₁ h₂ f
    obtain ⟨o₁', h₁', hkind₁, -⟩ := owner_of_modify h₁
    obtain ⟨o₂', h₂', hkind₂, -⟩ := owner_of_modify h₂
    rw [hkind₁, hkind₂]
    exact h.apart i j o₁' o₂' hne h₁' h₂' f
  case own =>
    intro o' ho' f
    obtain ⟨j, hj⟩ := List.mem_iff_getElem?.mp ho'
    obtain ⟨o₁, ho₁, hkind, hpml4, -⟩ := owner_of_modify hj
    rw [hkind, hpml4]
    exact h.own o₁ (List.mem_of_getElem? ho₁) f
  case fresh =>
    intro f hf
    exact (hsame f (.inl ((h.lives o hmem).free.other f hf))).trans (h.fresh f hf)
  case left => exact h.left

/-! ## Loading -/

theorem loading_left {cr3 pml4 : Frame} {frames : List Frame} {s : PhysMem} {kindP : Frame → Kind}
    (h : Loading cr3 pml4 frames s kindP mem) : mem.frames <:+ s.frames := by
  rw [h.1]
  exact h.2.left.trans (List.suffix_cons pml4 frames)

/-- What the loader leaves as it is, also when it stops early. -/
theorem ProgramInv.loading {cr3 pml4 : Frame} {frames : List Frame} {kindP : Frame → Kind}
    (h : ProgramInv kernel start spaces m kind owners) (hcr3 : cr3 ∈ kernel :: m.pml4s)
    (hload : Loading cr3 pml4 frames m.mem kindP mem) :
    ProgramInv kernel start spaces { m with mem := mem } kind owners := by
  have hroot : cr3 ∉ m.mem.frames := fun hfree =>
    ne_other_of_root (h.kernel.roots cr3 hcr3) (h.kernel.free.other cr3 hfree)
  obtain ⟨hsame, -⟩ := Loading.kernel hroot hload
  have hleft := loading_left hload
  constructor
  case kernel =>
    exact KernelInv.keep h.kernel (fun f hf => hsame f fun hfree => hf (h.kernel.free.other f hfree)) hleft
  case pml4s => exact h.pml4s
  case spaces => exact h.spaces
  case lives =>
    intro o ho
    refine Lives.keep (h.lives o ho) (fun f i huses => ?_) hleft
    rw [hsame f (Lives.not_free (h.lives o ho) huses.1)]
  case apart => exact h.apart
  case own => exact h.own
  case fresh =>
    intro f hf
    have hother := hload.2.free.other f hf
    have hne : f ≠ pml4 := by
      rintro rfl
      exact ne_other_of_root (Loading.root hload) hother
    rw [hload.2.apart f hother]
    exact (Ram.setTable_of_ne hne _).trans (h.fresh f (hleft.subset hf))
  case left => exact hleft.trans h.left

/-- The new process, with frames that were free. -/
theorem lives_of_represents {cr3 : Frame} {frames : List Frame} {kindP : Frame → Kind} {a : AddressSpace}
    (h : ProgramInv kernel start spaces m kind owners)
    (hrep : Represents cr3 process.pml4 frames m.mem kindP mem a) (hhonoured : Honoured mem.ram process.pml4) :
    Owner.Lives start ⟨process.pml4, kindP, a⟩ mem where
  root := hrep.root
  shape := hrep.shape
  free := hrep.free
  user := hrep.user
  honoured := hhonoured
  flags := hrep.flags
  bytes := hrep.bytes
  stale va hva hb f flags hv := by
    have hdata := hrep.kind_data (by omega) hv
    have hfree := Loading.taken hrep.loading (ne_other_of_data hdata)
    refine ⟨h.left.subset hfree, ?_⟩
    rw [hrep.stale va hva hb f flags hv]
    unfold Ram.byte
    rw [h.fresh f hfree]

/-- A process is loaded. -/
theorem ProgramInv.load {cr3 : Frame} {frames : List Frame} {kindP : Frame → Kind} {a : AddressSpace}
    (h : ProgramInv kernel start spaces m kind owners) (hcr3 : cr3 ∈ kernel :: m.pml4s)
    (hrep : Represents cr3 process.pml4 frames m.mem kindP mem a) (hhonoured : Honoured mem.ram process.pml4) :
    ProgramInv kernel start (spaces ++ [a]) ⟨mem, m.processes ++ [process]⟩
      (Function.update kind process.pml4 .root) (owners ++ [⟨process.pml4, kindP, a⟩]) := by
  have hroot : cr3 ∉ m.mem.frames := fun hfree =>
    ne_other_of_root (h.kernel.roots cr3 hcr3) (h.kernel.free.other cr3 hfree)
  have hafter := ProgramInv.loading h hcr3 hrep.loading
  have hlives := lives_of_represents h hrep hhonoured
  have htaken : ∀ f, kindP f ≠ .other → f ∈ m.mem.frames := fun f hf => Loading.taken hrep.loading hf
  have hpml4 : kind process.pml4 = .other :=
    h.kernel.free.other _ (htaken _ (ne_other_of_root hrep.root))
  have hpml4s : (⟨mem, m.processes ++ [process]⟩ : Programs).pml4s = m.pml4s ++ [process.pml4] := List.map_append
  have hnew : ∀ o ∈ owners, ∀ f, o.kind f ≠ .other → kindP f = .other := by
    intro o ho f hf
    by_contra hused
    exact Lives.not_free (h.lives o ho) hf (htaken f hused)
  constructor
  case kernel =>
    rw [hpml4s]
    refine KernelInv.add hafter.kernel hpml4 (Lives.not_free hlives (ne_other_of_root hrep.root)) fun i hi => ?_
    rw [(Loading.kernel hroot hrep.loading).2 i hi]
    exact h.kernel.upper cr3 hcr3 i hi
  case pml4s =>
    rw [hpml4s, List.map_append, h.pml4s]
    rfl
  case spaces =>
    rw [List.map_append, h.spaces]
    rfl
  case lives =>
    intro o ho
    rcases List.mem_append.mp ho with ho | ho
    · exact hafter.lives o ho
    · rw [List.mem_singleton.mp ho]
      exact hlives
  case apart =>
    intro i j o o' hne hi hj f hf
    rcases getElem?_concat hi with hold | ⟨hlast, rfl⟩ <;> rcases getElem?_concat hj with hold' | ⟨hlast', rfl⟩
    · exact h.apart i j o o' hne hold hold' f hf
    · exact hnew o (List.mem_of_getElem? hold) f hf
    · by_contra hused
      exact hf (hnew o' (List.mem_of_getElem? hold') f hused)
    · exact absurd (hlast.trans hlast'.symm) hne
  case own =>
    intro o ho f hf hne
    rcases List.mem_append.mp ho with ho | ho
    · have hfree := Lives.not_free (h.lives o ho) hf
      rw [Function.update_of_ne (by rintro rfl; exact hfree (htaken _ (ne_other_of_root hrep.root)))]
      exact h.own o ho f hf hne
    · rw [List.mem_singleton.mp ho] at hf hne
      rw [Function.update_of_ne hne]
      exact h.kernel.free.other f (htaken f hf)
  case fresh => exact hafter.fresh
  case left => exact hafter.left

/-- Every step keeps the invariant, and changes the address spaces as it should. -/
theorem programStep_inv (hc : c.Lawful) (hhidden : Hidden start.ram kernel) {e : ProgramEvent}
    (hlow : ∀ cr3 data, e = .load cr3 data → ∀ ph ∈ elfSegments data, ph.virtualAddress < 2 ^ 47)
    (h : ∃ kind owners, ProgramInv kernel start spaces m kind owners) (hstep : programStep c kernel m e = some m') :
    ∃ kind owners, ProgramInv kernel start (programSpec spaces e) m' kind owners := by
  obtain ⟨kind, owners, h⟩ := h
  cases e with
  | load cr3 data =>
    obtain ⟨hcontains, hstep⟩ := Option.ite_none_right_eq_some.mp hstep
    have hcr3 : cr3 ∈ kernel :: m.pml4s := List.contains_iff_mem.mp hcontains
    obtain ⟨⟨e | process, mem⟩, hresult, rfl⟩ := Option.map_eq_some_iff.mp hstep
    · obtain ⟨hloads, hmem⟩ := (newFromElf_honoured hc h.kernel.free.nodup (hlow cr3 data rfl)).returns hresult
      have hspec : programSpec spaces (.load cr3 data) = spaces := if_neg (by rw [hloads]; exact Bool.false_ne_true)
      have hprocesses : m.processes ++ (Except.error e).toOption.toList = m.processes := List.append_nil _
      rw [hspec, hprocesses]
      rcases hmem with rfl | ⟨pml4, frames, kindP, hload⟩
      · exact ⟨kind, owners, h⟩
      · exact ⟨kind, owners, ProgramInv.loading h hcr3 hload⟩
    · obtain ⟨hloads, hhonoured, frames, kindP, hrep⟩ :=
        (newFromElf_honoured hc h.kernel.free.nodup (hlow cr3 data rfl)).returns hresult
      have hspec : programSpec spaces (.load cr3 data) = spaces ++ [.load data (elfSegments data)] := if_pos hloads
      rw [hspec]
      exact ⟨_, _, ProgramInv.load h hcr3 hrep hhonoured⟩
  | newTask id =>
    obtain ⟨hid, hstep⟩ := Option.ite_none_right_eq_some.mp hstep
    obtain ⟨⟨u, mem⟩, hresult, rfl⟩ := Option.map_eq_some_iff.mp hstep
    obtain ⟨kind', hinv, hwork⟩ := (mapKernelTaskStack_work hc h.kernel hid).returns hresult
    exact ⟨kind', owners, ProgramInv.work h hinv hwork⟩
  | newUser n id =>
    obtain ⟨process, hp, hstep⟩ := Option.bind_eq_some_iff.mp hstep
    obtain ⟨hid, hstep⟩ := Option.ite_none_right_eq_some.mp hstep
    obtain ⟨⟨u, mem⟩, hresult, rfl⟩ := Option.map_eq_some_iff.mp hstep
    have hmem : process.pml4 ∈ m.pml4s := List.mem_map_of_mem (List.mem_of_getElem? hp)
    obtain ⟨kind', hinv, hwork⟩ := (mapUserTaskStack_work hc h.kernel hmem hid).returns hresult
    exact ⟨kind', owners, ProgramInv.work h hinv hwork⟩
  | kernelStore va word =>
    obtain ⟨hva, hstep⟩ := Option.ite_none_right_eq_some.mp hstep
    obtain ⟨tr, hw, rfl⟩ := Option.map_eq_some_iff.mp hstep
    obtain ⟨hinv, hwork⟩ := KernelInv.store h.kernel hva hw (Fin.ofNat 512 (va % 4096 / 8)) word
    exact ⟨kind, owners, ProgramInv.work h hinv (hwork _)⟩
  | store n va b =>
    obtain ⟨process, hp, rfl⟩ := Option.map_eq_some_iff.mp hstep
    obtain ⟨o, ho, hpml4, -⟩ := ProgramInv.owner h hp
    rw [← hpml4]
    exact ⟨kind, _, ProgramInv.store h hhidden ho⟩

/-- What the invariant says of the processes. -/
theorem ProgramInv.separate (h : ProgramInv kernel start spaces m kind owners) (hhidden : Hidden start.ram kernel) :
    Separate start spaces m := by
  have hlives : ∀ (n : Nat) (process : Process) (a : AddressSpace), m.processes[n]? = some process →
      spaces[n]? = some a → ∃ o : Owner, o.Lives start m.mem ∧ Hidden m.mem.ram o.pml4 ∧
        o.pml4 = process.pml4 ∧ o.space = a := by
    intro n process a hp ha
    obtain ⟨o, ho, hpml4, hspace⟩ := ProgramInv.owner h hp
    have hmem := List.mem_of_getElem? ho
    exact ⟨o, h.lives o hmem, ProgramInv.hidden h hhidden hmem, hpml4, Option.some.inj (hspace.symm.trans ha)⟩
  constructor
  case count =>
    have hlength := congrArg List.length h.pml4s
    rw [Programs.pml4s, List.length_map, List.length_map] at hlength
    rw [← h.spaces, List.length_map, hlength]
  case flags =>
    intro n process a hp ha
    obtain ⟨o, ho, -, hpml4, rfl⟩ := hlives n process a hp ha
    rw [← hpml4]
    exact ho.flags
  case reads =>
    intro n process a hp ha va hva
    obtain ⟨o, ho, hhid, hpml4, rfl⟩ := hlives n process a hp ha
    rw [← hpml4]
    exact Lives.reads ho hhid hva
  case stores =>
    intro n process a hp ha va b hva
    obtain ⟨o, ho, hhid, hpml4, rfl⟩ := hlives n process a hp ha
    rw [← hpml4]
    exact Lives.stores ho hhid hva
  case frames =>
    intro n n' process process' hne hp hp' p hlt p' hlt' tr tr' hw hw' heq
    obtain ⟨o, ho, hpml4, -⟩ := ProgramInv.owner h hp
    obtain ⟨o', ho', hpml4', -⟩ := ProgramInv.owner h hp'
    rw [← hpml4] at hw
    rw [← hpml4'] at hw'
    have hdata := Lives.kind_data (h.lives o (List.mem_of_getElem? ho)) hlt hw
    have hdata' := Lives.kind_data (h.lives o' (List.mem_of_getElem? ho')) hlt' hw'
    rw [heq] at hdata
    exact ne_other_of_data hdata' (h.apart n n' o o' hne ho ho' _ (ne_other_of_data hdata))

/-- After boot there are no processes. -/
theorem programInv_init (h : SpaceInv kernel (mem.ram kernel) [] kind mem) :
    ProgramInv kernel mem [] ⟨mem, []⟩ kind [] where
  kernel := kernelInv_init h
  pml4s := rfl
  spaces := rfl
  lives _ ho := absurd ho List.not_mem_nil
  apart _ _ o _ _ hi := absurd hi.symm (Option.some_ne_none o)
  own _ ho := absurd ho List.not_mem_nil
  fresh _ _ := rfl
  left := List.suffix_rfl

theorem hidden_init {boot : PhysMem}
    (hsupervisor : ∀ i : Fin 512, 256 ≤ i.val → (boot.ram kernel i).flags.isUser = false)
    (huser : ∀ i, (mem.ram kernel i).flags.isUser = true → (boot.ram kernel i).flags.isUser = true) :
    Hidden mem.ram kernel := by
  intro i hi
  rw [← Bool.not_eq_true]
  intro hu
  exact absurd (huser i hu) (by rw [hsupervisor i hi]; exact Bool.false_ne_true)

end ProgramLemmas

open ProgramLemmas

/-- In every run from boot, whatever is loaded and whatever the kernel and the processes write, each process has
the address space of its own image and its own stores. -/
theorem processes_isolated {c : Mapper} (hc : c.Lawful) {kernel : Frame} {boot mem : PhysMem}
    (hboot : BootTables kernel boot)
    (hsupervisor : ∀ i : Fin 512, 256 ≤ i.val → (boot.ram kernel i).flags.isUser = false)
    (hinit : (initKernelSpace c kernel).result boot = some ((), mem)) {events : List ProgramEvent}
    (hlow : ∀ cr3 data, .load cr3 data ∈ events → ∀ ph ∈ elfSegments data, ph.virtualAddress < 2 ^ 47)
    {m : Programs} (hrun : run (programStep c kernel) ⟨mem, []⟩ events = some m) :
    Separate mem (events.foldl programSpec []) m := by
  obtain ⟨⟨kind, hinv⟩, huser, -⟩ := (initKernelSpace_ends hc hboot).returns hinit
  have hhidden := hidden_init hsupervisor huser
  obtain ⟨kind', owners, hend⟩ := run_refines
    (R := fun spaces m => ∃ kind owners, ProgramInv kernel mem spaces m kind owners)
    (C := fun e => ∀ cr3 data, e = ProgramEvent.load cr3 data → ∀ ph ∈ elfSegments data, ph.virtualAddress < 2 ^ 47)
    (fun _ _ _ _ hlow h hstep => programStep_inv hc hhidden hlow h hstep)
    (fun e he cr3 data heq => hlow cr3 data (heq ▸ he)) ⟨kind, [], programInv_init hinv⟩ hrun
  exact ProgramInv.separate hend hhidden

/-- Two processes of one image. One of them writes to its stack, the other one to an address that it may not
write to. -/
def twoPrograms : List ProgramEvent :=
  [.load 1 meetingElf, .newUser 0 1, .load 1 meetingElf, .newUser 1 2, .store 0 0x700000000000 7,
    .kernelStore 0xFFFFA00000000000 .unused, .store 1 0xFFFFA00000000000 7]

/-- A run from a state at boot. -/
def runPrograms (c : Mapper) (kernel : Frame) (boot : PhysMem) (events : List ProgramEvent) :
    Option (PhysMem × Programs) :=
  ((initKernelSpace c kernel).result boot).bind fun r =>
    (run (programStep c kernel) ⟨r.2, []⟩ events).map fun m => (r.2, m)

theorem processes_isolated_two : ∃ mem m, runPrograms plainMapper 1 sampleBoot twoPrograms = some (mem, m) ∧
    m.processes.length = 2 ∧ Separate mem (twoPrograms.foldl programSpec []) m := by
  have hcount : (runPrograms plainMapper 1 sampleBoot twoPrograms).map (·.2.processes.length) = some 2 := by
    decide +kernel
  have hlow : ∀ ph ∈ elfSegments meetingElf, ph.virtualAddress < 2 ^ 47 := by decide +kernel
  have hsupervisor : ∀ i : Fin 512, 256 ≤ i.val → (sampleBoot.ram 1 i).flags.isUser = false := by decide +kernel
  obtain ⟨⟨mem, m⟩, hm, hlength⟩ := Option.map_eq_some_iff.mp hcount
  refine ⟨mem, m, hm, hlength, ?_⟩
  obtain ⟨⟨u, mem'⟩, hinit, hrun⟩ := Option.bind_eq_some_iff.mp hm
  obtain ⟨m', hrun, heq⟩ := Option.map_eq_some_iff.mp hrun
  cases heq
  refine processes_isolated plainMapper_lawful sampleBoot_tables hsupervisor hinit (fun cr3 data hmem => ?_) hrun
  have hdata : cr3 = 1 ∧ data = meetingElf := by
    unfold twoPrograms at hmem
    simpa using hmem
  rw [hdata.2]
  exact hlow

end Turnix
