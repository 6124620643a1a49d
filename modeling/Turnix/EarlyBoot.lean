import Turnix.FileSyscalls
import Turnix.Font
import Turnix.LoadPanics
import Turnix.StackFrames

/-!
# Boot

`early_boot`, from the frame allocator to the first task: the heap and the region of the stacks are mapped, the files
of the ramdisk are decoded, the font is read, and if there is a file `init` it is started, and after it `shell` and
`fault-tester`, if they are there. Then come three tasks of the kernel.

`early_boot_starts` says what is in memory and in the queue of the scheduler then. There is one task for each of these
programs, in this order, with an address space that is that of its file and has no frame in common with another one;
and whatever is switched to first, the context that the switch restores is on its stack, under its own page tables.
The descriptors with which the files were read stay open.

Of the heap only the buffers of the files are modelled: `room` says for which of them there is memory. Left out are the
checks of `BootInfo`, the drivers and the messages on the serial line, which use no frame of the allocator. The kernel
reaches frames through the direct map, which covers 4 GiB; the model reaches all of them, so that the allocator has none
above is assumed.
-/

namespace Turnix

open Lib Lib.Paging PanicM

/-- What `early_boot` works on. -/
structure Boot where
  mem : PhysMem
  vfs : Vfs
  term : Terminal
  kernel : Kernel
  nextId : TaskId

/-- Code that works on memory. -/
def onMem {α : Type} (x : PanicM PhysMem α) : PanicM Boot α := zoom Boot.mem (fun mem b => { b with mem := mem }) x

/-! ## Tasks -/

/-- `TaskId::new`. -/
def TaskId.new : PanicM Boot TaskId := do
  let b ← PanicM.get
  PanicM.modify fun b => { b with nextId := b.nextId + 1 }
  pure b.nextId

/-- `Process::kernel_process`; `kernel` is the frame in `CR3`. -/
def Process.kernelProcess (kernel : Frame) : Process := ⟨kernel.toNat, 0, 0⟩

/-- `Task::new`. -/
def Task.new (c : Mapper) (kernel : Frame) (entry : BitVec 64) : PanicM Boot Task := do
  let id ← TaskId.new
  onMem (mapKernelTaskStack c kernel id)
  let stackPtr ← onMem (pushFrame kernel (newFrame (kernelContext entry.toNat (stackTop id))) (stackTop id))
  pure ⟨id, stackPtr, stackTop id, .kernelProcess kernel, .ready⟩

/-- `Task::new_user`. -/
def Task.newUser (c : Mapper) (kernel : Frame) (process : Process) : PanicM Boot Task := do
  let id ← TaskId.new
  onMem (mapUserTaskStack c kernel process.pml4 id)
  let stackPtr ← onMem (pushFrame kernel (newFrame (userContext process)) (stackTop id))
  pure ⟨id, stackPtr, stackTop id, process, .ready⟩

/-- `scheduler::add_task`. -/
def Boot.addTask (task : Task) : PanicM Boot Unit :=
  PanicM.modify fun b => { b with kernel := Turnix.addTask task b.kernel }

/-! ## Files -/

/-- A buffer on the heap. One without bytes needs no memory. -/
def allocate (room : Boot → Nat → Bool) (size : Nat) : PanicM Boot Unit := do
  let b ← PanicM.get
  PanicM.ensure (size == 0 || room b size)

/-- A file is opened, a buffer of its size is made, and the file is read: `&data[..len]`. -/
def readFile (room : Boot → Nat → Bool) (name : String) : PanicM Boot (Option (List UInt8)) := do
  let b ← PanicM.get
  let (fd, vfs) := b.vfs.open name
  PanicM.modify fun b => { b with vfs := vfs }
  match fd with
  | none => pure none
  | some fd =>
    let stat ← PanicM.expect (vfs.stat name)
    allocate room stat.size
    let r := vfs.read b.term fd (List.replicate stat.size 0)
    PanicM.modify fun b => { b with vfs := r.vfs, term := r.term }
    pure (r.ret.map fun len => r.buf.take len)

/-- `init_console`. -/
def initConsole (data : List UInt8) : PanicM Boot Unit :=
  match Psf2Font.new data with
  | .error _ => .fail
  | .ok none => pure ()
  | .ok (some _) => PanicM.modify fun b => { b with term := { b.term with console := some [] } }

/-! ## The sequence -/

/-- `init_from_ramdisk`. -/
def initVfs (addr : Nat) (ramdisk : List UInt8) : PanicM Boot Unit := do
  let b ← PanicM.get
  match b.vfs.initFromRamdisk addr ramdisk with
  | .error _ => .fail
  | .ok vfs => PanicM.modify fun b => { b with vfs := vfs }

/-- The text console, with the font of `font.psf`. -/
def startConsole (room : Boot → Nat → Bool) : PanicM Boot Unit := do
  match ← readFile room "font.psf" with
  | none => pure ()
  | some data =>
    -- font_data[..len].to_vec()
    allocate room data.length
    initConsole data

/-- `new_from_elf`, `new_user` and `add_task`. -/
def startProgram (c : Mapper) (kernel : Frame) (data : List UInt8) : PanicM Boot Unit := do
  match ← onMem (Process.newFromElf c kernel data) with
  | .error _ => .fail
  | .ok process =>
    let task ← Task.newUser c kernel process
    Boot.addTask task

/-- `shell` and `fault-tester` are started if they can be read. -/
def startFile (c : Mapper) (room : Boot → Nat → Bool) (kernel : Frame) (name : String) : PanicM Boot Unit := do
  match ← readFile room name with
  | none => pure ()
  | some data => startProgram c kernel data

/-- `init`, and the other programs if it is there. -/
def startPrograms (c : Mapper) (room : Boot → Nat → Bool) (kernel : Frame) : PanicM Boot Unit := do
  match ← readFile room "init" with
  | none => pure ()
  | some data =>
    startProgram c kernel data
    startFile c room kernel "shell"
    startFile c room kernel "fault-tester"

/-- A task of the kernel. -/
def startTask (c : Mapper) (kernel : Frame) (entry : BitVec 64) : PanicM Boot Unit := do
  let task ← Task.new c kernel entry
  Boot.addTask task

/-- The addresses of `heartbeat_task`, `worker_task` and `idle_task`. -/
structure KernelTasks where
  heartbeat : BitVec 64
  worker : BitVec 64
  idle : BitVec 64

/-- `early_boot`, up to the point where interrupts are enabled. -/
def earlyBoot (c : Mapper) (room : Boot → Nat → Bool) (kernel : Frame) (ramdiskAddr : Nat) (ramdisk : List UInt8)
    (tasks : KernelTasks) : PanicM Boot Unit := do
  onMem (initKernelSpace c kernel)
  initVfs ramdiskAddr ramdisk
  startConsole room
  startPrograms c room kernel
  startTask c kernel tasks.heartbeat
  startTask c kernel tasks.worker
  startTask c kernel tasks.idle

/-! ## What it is for -/

/-- What is in a file. -/
def Vfs.contents (v : Vfs) (name : String) : Option (List UInt8) := (v.lookup name).bind VfsEntry.data

/-- The programs that are started. -/
def bootPrograms (v : Vfs) : List (List UInt8) :=
  match v.contents "init" with
  | none => []
  | some data => data :: ((v.contents "shell").toList ++ (v.contents "fault-tester").toList)

/-- The descriptor with which a file has been read. -/
def readDescriptor (v : Vfs) (name : String) : Option FileDescriptor :=
  (v.lookup name).map fun e => ⟨name, e.fileType, (e.data.map List.length).getD 0⟩

/-- The descriptors that stay open. -/
def bootDescriptors (v : Vfs) : List FileDescriptor :=
  (readDescriptor v "font.psf").toList ++ (readDescriptor v "init").toList ++
    if (v.contents "init").isSome then
      (readDescriptor v "shell").toList ++ (readDescriptor v "fault-tester").toList
    else []

/-- The context with which a program starts. -/
def programContext (data : List UInt8) : Context :=
  let entry := match parseHeader data with
    | .ok header => header.entry
    | .error _ => 0
  userContext ⟨0, entry, 0x700000008000⟩

/-- The contexts of the tasks, in the order of the queue. -/
def bootContexts (programs : List (List UInt8)) (entries : List (BitVec 64)) : List Context :=
  programs.map programContext ++
    (entries.zipIdx (programs.length + 1)).map fun e => kernelContext e.1.toNat (stackTop e.2)

/-- The context is on the stack of the task, from its stack pointer on. -/
def StartsWith (ram : Ram) (task : Task) (ctx : Context) : Prop :=
  ∀ (i : Nat) (word : Nat), ctx.frame[i]? = some word →
    readWord ram task.process.pml4 (task.stackPtr + 8 * i) = some word

/-- The files that are read. -/
def bootFiles : List String := ["font.psf", "init", "shell", "fault-tester"]

/-- There are no frames left, or the heap has no room for one of the files. -/
def OutOfMemory (room : Boot → Nat → Bool) (v : Vfs) (b : Boot) : Prop :=
  b.mem.frames = [] ∨ ∃ name ∈ bootFiles, ∃ data, v.contents name = some data ∧ room b data.length = false

/-- The state before the first task is switched to. `start` is memory before the first program was loaded. -/
structure Booted (kernel : Frame) (start : PhysMem) (v : Vfs) (tasks : KernelTasks) (b : Boot) : Prop where
  /-- the tasks have the numbers and the stacks from 1 on -/
  ids : b.kernel.sched.tasks.map Task.id = List.range' 1 ((bootPrograms v).length + 3)
  ready : ∀ task ∈ b.kernel.sched.tasks, task.kernelStackTop = stackTop task.id ∧ task.state = .ready
  contexts : List.Forall₂ (StartsWith b.mem.ram) b.kernel.sched.tasks
    (bootContexts (bootPrograms v) [tasks.heartbeat, tasks.worker, tasks.idle])
  /-- the processes of the programs, and that of the kernel -/
  programs : ∃ processes, b.kernel.sched.tasks.map Task.process =
      processes ++ List.replicate 3 (.kernelProcess kernel) ∧
    Separate start ((bootPrograms v).map fun data => .load data (elfSegments data)) ⟨b.mem, processes⟩
  files : b.vfs.entries = v.entries
  descriptors : ∀ j, b.vfs.openFiles j = (bootDescriptors v)[j.val]?


namespace BootLemmas

open RegionLemmas SpaceLemmas KernelLemmas ProgramLemmas StackFrameLemmas ImageLemmas LoaderLemmas PanicLemmas VfsLemmas
  FileSyscallLemmas CloneLemmas IsolationLemmas OwnerLemmas

/-! ## The kernel's part of memory -/

section Memory

variable {c : Mapper} {kernel : Frame} {kind : Frame → Kind} {s : PhysMem}

/-- The first page of the heap. -/
def heapPage : Nat := 0xFFFFA00000000000 / 4096

theorem position_heap {m n : Nat} (hm : m < 25) (hn : n < 25) :
    position 0 (heapPage + m) = position 0 (heapPage + n) ↔ m = n := by
  rw [position_zero, position_zero]
  show (0xFFFFA00000000000 / 4096 + m) % 512 ^ 4 = (0xFFFFA00000000000 / 4096 + n) % 512 ^ 4 ↔ m = n
  omega

theorem canonical_heap {n : Nat} (hn : n < 25) : canonical ((heapPage + n + 1) * 4096) = true := by
  rw [canonical_iff]
  right
  show 2 ^ 64 - 2 ^ 47 ≤ (0xFFFFA00000000000 / 4096 + n + 1) * 4096 ∧
    (0xFFFFA00000000000 / 4096 + n + 1) * 4096 < 2 ^ 64
  omega

/-- Nothing is mapped where the heap is to be, so only the allocator can fail. -/
theorem mapHeapPages_ready (hc : c.Lawful) : ∀ (count n : Nat) {kind : Frame → Kind} {s : PhysMem},
    Shape (known kernel) kind s.ram → Free kind s.frames → kind kernel = .root → n + count ≤ 25 →
    (∀ m, n ≤ m → m < 25 → leafAt s.ram 3 kernel (heapPage + m) = .unused) →
    Ends (mapHeapPages c kernel count (heapPage + n)) s (fun result s' => result = .ok () ∨ s'.frames = [])
      fun _ => False
  | 0, _, _, _, _, _, _, _, _ => .inl rfl
  | count + 1, n, kind, s, hs, hfree, hroot, hcount, hclear => by
    have hn : n < 25 := by omega
    have hholds : ∀ {m}, m < 25 → Holds (known kernel) kind 3 (heapPage + m) kernel :=
      fun hm => holds_root hroot (.inr (.inl ⟨rfl, index_heap hm⟩))
    unfold mapHeapPages
    rw [ends_bind, ends_nextPage]
    refine ⟨fun _ => ?_, fun hnot => hnot (.inr (canonical_heap hn))⟩
    rw [ends_bind, ends_allocateFrame]
    refine ⟨fun hnil => .inr hnil, fun frame frames hframes => ?_⟩
    have hspare : Spare kind (heapPage + n) frame frames := Free.take (hframes ▸ hfree)
    dsimp only
    rw [ends_bind]
    refine ends_mapTo hc hs (hholds hn) hspare (by decide) (by decide)
      fun kind' used out writes hwrites hmap heffect => ?_
    rcases hresult : out.result with e | _
    · exact .inr ((hmap.ok_or_exhausted (Nat.le_refl 3) hs (hholds hn) hspare.toFree
        (hclear n (Nat.le_refl n) hn)).resolve_left fun hok => by rw [hresult] at hok; cases hok)
    · have hgrows : Grows (known kernel) s.frames kernel (fun i => i = heapSlot) kind
          { s with frames := frames } kind' _ :=
        grows_mapTo hs hroot hspare (index_heap hn) (hframes ▸ List.mem_cons_self)
          (fun f hf => hframes ▸ List.mem_cons_of_mem _ hf) hwrites heffect
      rw [hresult] at hgrows
      refine mapHeapPages_ready hc count (n + 1) hgrows.shape hgrows.free (hgrows.ext.root hroot) (by omega)
        fun m hm hlt => ?_
      show leafAt out.ram 3 kernel (heapPage + m) = .unused
      rw [hmap.leafAt_eq (Nat.le_refl 3) hs (hholds hn) hspare.toFree _ (hholds hlt), if_neg fun h => ?_]
      · exact hclear m (by omega) hlt
      · have := (position_heap hlt hn).mp h.1
        omega

theorem initKernelStackRegion_ready (hc : c.Lawful) :
    Ends (initKernelStackRegion c kernel) s (fun _ _ => True) fun s' => s'.frames = [] := by
  unfold initKernelStackRegion
  rw [ends_bind, ends_get]
  rcases c.translateAddr s.ram kernel (anchorPage * 4096) with _ | pa
  · show Ends (allocateFrame >>= _) _ _ _
    rw [ends_expect_allocateFrame]
    refine ⟨id, fun frame frames _ => ?_⟩
    rw [ends_bind]
    exact ends_mapTo_does hc (by decide) (by decide) fun _ _ _ _ => trivial
  · trivial

/-- The heap and the region of the stacks are there, unless the allocator has run out. -/
theorem initKernelSpace_ready (hc : c.Lawful) (hboot : BootTables kernel s) :
    Ends (initKernelSpace c kernel) s (fun _ _ => True) fun s' => s'.frames = [] := by
  unfold initKernelSpace initHeap
  rw [ends_bind]
  refine (mapHeapPages_ready hc 25 0 (shape_boot hboot) (free_boot hboot) (Function.update_self ..) (by decide)
    fun m _ hm => leafAt_unused ?_).mono ?_ fun _ h => h.elim
  · rw [show index 3 (heapPage + m) = heapSlot from index_heap hm]
    exact hboot.heapRegion
  · intro result s₁ hresult
    rw [ends_bind, ends_expectOk]
    refine ⟨fun _ => initKernelStackRegion_ready hc, fun e he => hresult.resolve_left fun hok => ?_⟩
    rw [he] at hok
    cases hok

/-- Memory with some processes and tasks: the frames are used as they should, and the words are on the stacks. -/
def Memory (kernel : Frame) (start : PhysMem) (spaces : List AddressSpace) (processes : List Process) (nextId : Nat)
    (words : List (Nat × Nat)) (s : PhysMem) : Prop :=
  ∃ kind owners, ProgramInv kernel start spaces ⟨s, processes⟩ kind owners ∧
    (∀ x ∈ words, StackWord (nextId * 10) x.1) ∧
    StackRegion kernel (start.ram kernel) (processes.map Process.pml4) (nextId * 10) (nextId * 10) words kind s

variable {start : PhysMem} {spaces : List AddressSpace} {processes : List Process} {nextId : Nat}
  {words : List (Nat × Nat)} {data : List UInt8}

/-- There are no tasks after the first steps of boot. -/
theorem memory_init (hc : c.Lawful) (hboot : BootTables kernel s) :
    Ends (initKernelSpace c kernel) s
      (fun _ s' => Memory kernel s' [] [] 1 [] s' ∧
        ∀ i, (s'.ram kernel i).flags.isUser = true → (s.ram kernel i).flags.isUser = true)
      fun s' => s'.frames = [] := by
  refine (Ends.and (initKernelSpace_ends hc hboot) (initKernelSpace_ready hc hboot)).mono ?_ fun _ h => h.2
  rintro _ s' ⟨⟨⟨kind, hinv⟩, huser, frame, hanchor⟩, -⟩
  refine ⟨⟨kind, [], programInv_init hinv, fun x hx => absurd hx List.not_mem_nil, ?_⟩, huser⟩
  constructor
  case toKernelInv => exact kernelInv_init hinv
  case clear =>
    intro hne n hn hlt
    rw [hanchor hne n hlt, if_neg (by omega)]
  case ready => exact fun _ n hn hlt => absurd hlt (Nat.not_lt.mpr hn)
  case words => exact fun x hx => absurd hx List.not_mem_nil
  case small => decide

theorem loads_iff {header : ElfHeader} (h : parseHeader data = .ok header) :
    loads data = (tableResult data header header.programHeaderCount 0).toBool := by
  unfold loads
  rw [h]

/-- A program is loaded that the loader accepts. -/
theorem Memory.load (hc : c.Lawful) (h : Memory kernel start spaces processes nextId words s)
    (hfit : AddressesFit data) (hloads : loads data = true) :
    Ends (Process.newFromElf c kernel data) s
      (fun r s' => ∃ process, r = .ok process ∧ userContext process = programContext data ∧
        Memory kernel start (spaces ++ [.load data (elfSegments data)]) (processes ++ [process]) nextId words s')
      fun s' => s'.frames = [] := by
  obtain ⟨kind, owners, hprograms, hwords, hregion⟩ := h
  rcases hheader : parseHeader data with e | header
  · unfold loads at hloads
    rw [hheader] at hloads
    cases hloads
  obtain ⟨hentry, hfits⟩ := hfit header hheader
  have hnodup : s.frames.Nodup := hprograms.kernel.free.nodup
  have hlow : ∀ ph ∈ elfSegments data, ph.virtualAddress < 2 ^ 47 := by
    intro ph hph
    have hle := hfits ph hph
    unfold ProgramHeader.Fits at hle
    omega
  refine (Ends.and (newFromElf_honoured hc hnodup hlow)
    (ends_newFromElf_process hc hnodup hheader hentry hfits)).mono ?_ fun _ h => h.2.1
  rintro r s' ⟨hr, pml4, hresult⟩
  rw [loads_iff hheader] at hloads
  rcases htable : tableResult data header header.programHeaderCount 0 with e | _ <;> rw [htable] at hloads hresult
  · cases hloads
  · subst hresult
    obtain ⟨-, hhonoured, frames, kindP, hrep⟩ := hr
    have hnew := ProgramInv.load hprograms List.mem_cons_self hrep hhonoured
    refine ⟨_, rfl, ?_, _, _, hnew, hwords, ?_⟩
    · unfold programContext
      rw [hheader]
      rfl
    · have hkernel : kernel ∉ s.frames := fun hfree =>
        ne_other_of_root (hprograms.kernel.roots kernel List.mem_cons_self) (hprograms.kernel.free.other kernel hfree)
      have hsame := (Loading.kernel hkernel hrep.loading).1
      have hkept := StackRegion.keep hregion (fun f hf => hsame f fun hfree =>
        hf (hprograms.kernel.free.other f hfree)) (loading_left hrep.loading)
      have hpml4s := hnew.kernel
      exact { hkept with toKernelInv := by rwa [Programs.pml4s] at hpml4s }

/-- A task gets a stack with the words of its context. -/
theorem Memory.task {mapStack : PanicM PhysMem Unit} {ws : List Nat}
    (h : Memory kernel start spaces processes nextId words s) (hid : (nextId + 1) * 10 ≤ 2 ^ 27)
    (hstack : ∀ kind, StackRegion kernel (start.ram kernel) (processes.map Process.pml4) (nextId * 10) (nextId * 10)
        words kind s →
      Ends mapStack s (fun _ s' => ∃ kind', StackRegion kernel (start.ram kernel) (processes.map Process.pml4)
        (nextId * 10 + 1) (nextId * 10 + 9) words kind' s' ∧ KernelWork s.frames kind s kind' s')
        fun s' => s'.frames = [])
    (hlength : ws.length = 20) (hws : ∀ w ∈ ws, w < 2 ^ 64) :
    Ends mapStack s
      (fun _ s' => Ends (pushFrame kernel ws (stackTop nextId)) s'
        (fun sp s'' => sp = stackTop nextId - 160 ∧
          Memory kernel start spaces processes (nextId + 1) (pushed ws (stackTop nextId) ++ words) s'')
        fun s'' => s''.frames = [])
      fun s' => s'.frames = [] := by
  obtain ⟨kind, owners, hprograms, hwords, hregion⟩ := h
  refine (hstack kind hregion).mono ?_ fun _ h => h
  rintro _ s₁ ⟨kind₁, hregion₁, hwork₁⟩
  refine (pushFrame_task hregion₁ hid hwords hlength hws).mono ?_ fun _ h => h
  rintro sp s₂ ⟨hsp, hregion₂, hwork₂⟩
  have hwork := KernelWork.trans hwork₁ (hwork₂ s.frames)
  exact ⟨hsp, kind₁, owners, ProgramInv.work hprograms hregion₂.toKernelInv hwork,
    fun x hx => (hregion₂.words x hx).1, hregion₂⟩

end Memory

/-! ## Files -/

section Files

variable {room : Boot → Nat → Bool} {v w : Vfs} {ds : List FileDescriptor} {name : String} {b : Boot}

/-- The files are those of `v`, and these descriptors are open. -/
structure Opened (v : Vfs) (ds : List FileDescriptor) (w : Vfs) : Prop where
  entries : w.entries = v.entries
  descriptors : ∀ j, w.openFiles j = ds[j.val]?

theorem Opened.lookup (h : Opened v ds w) (name : String) : w.lookup name = v.lookup name := by
  unfold Vfs.lookup
  rw [h.entries]

theorem Opened.firstFree (h : Opened v ds w) (hds : ds.length < maxOpenFiles) :
    w.firstFree = some ⟨ds.length, hds⟩ := by
  rw [firstFree_eq_some, h.descriptors]
  refine ⟨List.getElem?_eq_none (Nat.le_refl _), fun j hj => ?_⟩
  rw [h.descriptors, List.getElem?_eq_getElem (Fin.lt_def.mp hj)]
  exact Option.some_ne_none _

theorem Opened.push (h : Opened v ds w) (hds : ds.length < maxOpenFiles) (d : FileDescriptor) :
    Opened v (ds ++ [d]) (w.setDescriptor ds.length (some d)) := by
  refine ⟨(entries_setDescriptor _ _ _).trans h.entries, fun j => ?_⟩
  rw [← descriptor_eq]
  rcases Nat.lt_trichotomy j.val ds.length with hlt | heq | hgt
  · rw [descriptor_setDescriptor_of_ne (Nat.ne_of_lt hlt), descriptor_eq, h.descriptors, List.getElem?_append_left hlt]
  · rw [heq, descriptor_setDescriptor hds, List.getElem?_concat_length]
  · rw [descriptor_setDescriptor_of_ne (Nat.ne_of_gt hgt), descriptor_eq, h.descriptors,
      List.getElem?_eq_none (Nat.le_of_lt hgt), List.getElem?_eq_none (by rw [List.length_append]; exact hgt)]

theorem setDescriptor_again (w : Vfs) (i : Nat) (d d' : Option FileDescriptor) :
    (w.setDescriptor i d).setDescriptor i d' = w.setDescriptor i d' := by
  unfold Vfs.setDescriptor
  split
  · rw [Function.update_idem]
  · rfl

theorem ends_allocate {size : Nat} {Q : Unit → Boot → Prop} {E : Boot → Prop} (hQ : Q () b)
    (hE : 0 < size → room b size = false → E b) : Ends (allocate room size) b Q E := by
  unfold allocate
  rw [ends_bind, ends_get, ends_ensure]
  refine ⟨fun _ => hQ, fun hfull => ?_⟩
  rw [Bool.or_eq_false_iff, beq_eq_false_iff_ne] at hfull
  exact hE (Nat.pos_of_ne_zero hfull.1) hfull.2

/-- `read` with a buffer of the size of the file, on a new descriptor. -/
theorem read_whole (h : Opened v ds w) (hds : ds.length < maxOpenFiles) (hname : name ≠ "tty") {e : VfsEntry}
    (he : v.lookup name = some e) (term : Terminal) :
    ∃ r : ReadResult, (w.setDescriptor ds.length (some ⟨name, e.fileType, 0⟩)).read term ds.length
        (List.replicate ((e.data.map List.length).getD 0) 0) = r ∧
      r.ret.map (fun len => r.buf.take len) = e.data ∧ r.term = term ∧
      Opened v (ds ++ [⟨name, e.fileType, (e.data.map List.length).getD 0⟩]) r.vfs := by
  unfold Vfs.read
  simp only [descriptor_setDescriptor hds, hname, lookup_setDescriptor, Opened.lookup h, he, ↓reduceIte]
  rcases hdata : e.data with _ | data
  · exact ⟨_, rfl, rfl, rfl, Opened.push h hds _⟩
  · simp only [Option.map_some, Option.getD_some, ge_iff_le, Nat.le_zero_eq, Nat.sub_zero, List.length_replicate,
      Nat.min_self, Nat.zero_add, List.drop_zero, List.take_length]
    by_cases hempty : data.length = 0
    · rw [if_pos hempty, List.length_eq_zero_iff.mp hempty]
      exact ⟨_, rfl, rfl, rfl, Opened.push h hds _⟩
    · rw [if_neg hempty, setDescriptor_again]
      refine ⟨_, rfl, congrArg some ?_, rfl, Opened.push h hds _⟩
      exact List.take_left' rfl

/-- A file is read as a whole, and its descriptor stays open. -/
theorem ends_readFile (h : Opened v ds b.vfs) (hds : ds.length < maxOpenFiles) (hfile : name ∈ bootFiles) :
    Ends (readFile room name) b
      (fun r b' => r = v.contents name ∧ ∃ vfs, b' = { b with vfs := vfs } ∧
        Opened v (ds ++ (readDescriptor v name).toList) vfs)
      (OutOfMemory room v) := by
  have hname : name ≠ "tty" := by
    rintro rfl
    exact absurd hfile (by decide)
  unfold readFile
  rw [ends_bind, ends_get]
  rcases open_cases b.vfs name with ⟨hnone, hopen⟩ | ⟨j, e, hj, he, hopen⟩ <;> rw [hopen]
  · have hlookup : v.lookup name = none := by
      rw [← Opened.lookup h]
      refine hnone.resolve_right fun hfull => ?_
      rw [Opened.firstFree h hds] at hfull
      cases hfull
    refine ⟨?_, b.vfs, rfl, ?_⟩
    · rw [Vfs.contents, hlookup, Option.bind_none]
    · rw [readDescriptor, hlookup, Option.map_none, Option.toList_none, List.append_nil]
      exact h
  · rw [Opened.firstFree h hds] at hj
    cases hj
    rw [Opened.lookup h] at he
    obtain ⟨r, hread, hret, hterm, hopened⟩ := read_whole h hds hname he b.term
    have hstat : (b.vfs.setDescriptor ds.length (some ⟨name, e.fileType, 0⟩)).stat name =
        some ⟨(e.data.map List.length).getD 0, e.fileType⟩ := by
      rw [Vfs.stat, lookup_setDescriptor, Opened.lookup h, he, Option.map_some]
    dsimp only
    rw [ends_bind, ends_modify, hstat, ends_bind, ends_expect]
    refine ⟨fun stat heq => ?_, fun hnone => absurd hnone (Option.some_ne_none _)⟩
    cases heq
    dsimp only
    rw [hread, ends_bind]
    refine ends_allocate ?_ fun hpos hfull => .inr ⟨name, hfile, ?_⟩
    · rw [ends_bind, ends_modify, ends_pure]
      refine ⟨hret.trans ?_, r.vfs, ?_, ?_⟩
      · rw [Vfs.contents, he, Option.bind_some]
      · rw [hterm]
      · rw [readDescriptor, he]
        exact hopened
    · rcases hdata : e.data with _ | data <;> rw [hdata] at hpos hfull
      · exact absurd hpos (Nat.lt_irrefl 0)
      · refine ⟨data, ?_, hfull⟩
        rw [Vfs.contents, he, Option.bind_some, hdata]

end Files

/-! ## The queue -/

section Tasks

variable {c : Mapper} {kernel : Frame} {start : PhysMem} {spaces : List AddressSpace} {processes owners : List Process}
  {contexts : List Context} {words : List (Nat × Nat)} {b : Boot}

/-- The words of the context are on the stack of the task. -/
def Placed (words : List (Nat × Nat)) (task : Task) (ctx : Context) : Prop :=
  ∀ (i word : Nat), ctx.frame[i]? = some word → (task.stackPtr + 8 * i, word) ∈ words

/-- The tasks of the queue have these processes and contexts. -/
structure Queue (owners : List Process) (contexts : List Context) (words : List (Nat × Nat)) (b : Boot) : Prop where
  next : b.nextId = contexts.length + 1
  ids : b.kernel.sched.tasks.map Task.id = List.range' 1 contexts.length
  ready : ∀ task ∈ b.kernel.sched.tasks, task.kernelStackTop = stackTop task.id ∧ task.state = .ready
  owners : b.kernel.sched.tasks.map Task.process = owners
  placed : List.Forall₂ (Placed words) b.kernel.sched.tasks contexts

theorem stackTop_large (id : Nat) : 8 * 20 ≤ stackTop id := by
  unfold stackTop
  omega

/-- The words in the order of their addresses. -/
theorem mem_pushed : ∀ {ws : List Nat} {sp i word : Nat}, 8 * ws.length ≤ sp → ws.reverse[i]? = some word →
    (sp - 8 * ws.length + 8 * i, word) ∈ pushed ws sp
  | [], sp, i, word, _, h => absurd h.symm (Option.some_ne_none word)
  | w :: ws, sp, i, word, hsp, h => by
    rw [List.length_cons] at hsp ⊢
    rw [List.reverse_cons] at h
    unfold pushed
    rcases getElem?_concat h with hold | ⟨hlast, rfl⟩
    · have hmem : (sp - 8 - 8 * ws.length + 8 * i, word) ∈ pushed ws (sp - 8) := mem_pushed (by omega) hold
      rw [show sp - 8 * (ws.length + 1) = sp - 8 - 8 * ws.length by omega]
      exact List.mem_cons_of_mem _ hmem
    · rw [hlast, List.length_reverse, show sp - 8 * (ws.length + 1) + 8 * ws.length = sp - 8 by omega]
      exact List.mem_cons_self

/-- The context of a new task is on its stack. -/
theorem placed_pushed {ctx : Context} (hgpr : ctx.gpr = fun _ => 0) {words : List (Nat × Nat)} {id : Nat}
    {process : Process} : Placed (pushed (newFrame ctx) (stackTop id) ++ words)
      ⟨id, stackTop id - 160, stackTop id, process, .ready⟩ ctx := by
  intro i word hword
  rw [← MachineLemmas.newFrame_reverse hgpr] at hword
  exact List.mem_append_left _ (mem_pushed (stackTop_large id) hword)

theorem Queue.add (h : Queue owners contexts words b) {ctx : Context} (hgpr : ctx.gpr = fun _ => 0) {process : Process}
    {mem : PhysMem} :
    Queue (owners ++ [process]) (contexts ++ [ctx]) (pushed (newFrame ctx) (stackTop b.nextId) ++ words)
      { b with
        mem := mem
        nextId := b.nextId + 1
        kernel := addTask ⟨b.nextId, stackTop b.nextId - 160, stackTop b.nextId, process, .ready⟩ b.kernel } where
  next := by rw [List.length_append, h.next]; rfl
  ids := by
    show (b.kernel.sched.tasks ++ [_]).map Task.id = _
    rw [List.map_append, h.ids, h.next, List.length_append, List.length_singleton, List.range'_concat]
    simp only [List.map_cons, List.map_nil, Nat.one_mul, Nat.add_comm]
  ready task htask := by
    rcases List.mem_append.mp htask with hold | hnew
    · exact h.ready task hold
    · rw [List.mem_singleton.mp hnew]
      exact ⟨rfl, rfl⟩
  owners := by
    show (b.kernel.sched.tasks ++ [_]).map Task.process = _
    rw [List.map_append, h.owners]
    rfl
  placed := by
    refine List.rel_append (h.placed.imp fun task ctx hplaced i word hword => ?_) (.cons (placed_pushed hgpr) .nil)
    exact List.mem_append_right _ (hplaced i word hword)

theorem few_pages {n id : Nat} (hid : id = n + 1) (hn : n ≤ 8) : (id + 1) * 10 ≤ 2 ^ 27 := by
  omega

/-- A new task with its stack is added to the queue. -/
theorem spawn_ends {mapStack : TaskId → PanicM PhysMem Unit} (ctx : TaskId → Context) {process : Process}
    (hmem : Memory kernel start spaces processes b.nextId words b.mem) (hqueue : Queue owners contexts words b)
    (hfew : contexts.length ≤ 8)
    (hstack : ∀ kind, StackRegion kernel (start.ram kernel) (processes.map Process.pml4) (b.nextId * 10)
        (b.nextId * 10) words kind b.mem →
      Ends (mapStack b.nextId) b.mem (fun _ s' => ∃ kind', StackRegion kernel (start.ram kernel)
          (processes.map Process.pml4) (b.nextId * 10 + 1) (b.nextId * 10 + 9) words kind' s' ∧
            KernelWork b.mem.frames kind b.mem kind' s')
        fun s' => s'.frames = [])
    (hgpr : (ctx b.nextId).gpr = fun _ => 0) (hctx : ∀ w ∈ newFrame (ctx b.nextId), w < 2 ^ 64) :
    Ends (do
        let task ← (do
          let id ← TaskId.new
          onMem (mapStack id)
          let stackPtr ← onMem (pushFrame kernel (newFrame (ctx id)) (stackTop id))
          pure ⟨id, stackPtr, stackTop id, process, .ready⟩)
        Boot.addTask task) b
      (fun _ b' => ∃ words', Memory kernel start spaces processes b'.nextId words' b'.mem ∧
        Queue (owners ++ [process]) (contexts ++ [ctx b.nextId]) words' b' ∧ b'.vfs = b.vfs)
      fun b' => b'.mem.frames = [] := by
  unfold TaskId.new onMem Boot.addTask
  simp only [ends_bind, ends_get, ends_modify, ends_pure, ends_zoom]
  refine (Memory.task hmem (few_pages hqueue.next hfew) hstack rfl hctx).mono ?_ fun _ h => h
  intro _ s₁ hpush
  refine hpush.mono ?_ fun _ h => h
  rintro sp s₂ ⟨hsp, hmem'⟩
  rw [hsp]
  exact ⟨_, hmem', Queue.add hqueue hgpr, trivial⟩

/-- The segments and the flags of a new task are small numbers. -/
theorem newFrame_small {ctx : Context} (hss : ctx.ss ≤ 0x23) (hcs : ctx.cs ≤ 0x2b) (hrflags : ctx.rflags ≤ 0x202)
    (hrsp : ctx.rsp < 2 ^ 64) (hrip : ctx.rip < 2 ^ 64) : ∀ w ∈ newFrame ctx, w < 2 ^ 64 := by
  intro w hw
  rcases List.mem_append.mp hw with hw | hw
  · simp only [List.mem_cons, List.not_mem_nil, or_false] at hw
    rcases hw with rfl | rfl | rfl | rfl | rfl
    · exact Nat.lt_of_le_of_lt hss (by decide)
    · exact hrsp
    · exact Nat.lt_of_le_of_lt hrflags (by decide)
    · exact Nat.lt_of_le_of_lt hcs (by decide)
    · exact hrip
  · rw [List.eq_of_mem_replicate hw]
    decide

theorem stackTop_small {n id : Nat} (hid : id = n + 1) (hn : n ≤ 8) : stackTop id < 2 ^ 64 := by
  unfold stackTop stackBottom kernelStackRegionBase stackStride
  omega

end Tasks

/-! ## The sequence -/

section Sequence

variable {c : Mapper} {room : Boot → Nat → Bool} {kernel : Frame} {start : PhysMem} {v : Vfs}
  {programs : List (List UInt8)} {entries : List (BitVec 64)} {ds : List FileDescriptor} {b : Boot}

/-- The programs have been started, and then the tasks of the kernel. -/
structure BootInv (kernel : Frame) (start : PhysMem) (v : Vfs) (programs : List (List UInt8))
    (entries : List (BitVec 64)) (ds : List FileDescriptor) (b : Boot) : Prop where
  tasks : ∃ processes words,
    Memory kernel start (programs.map fun data => .load data (elfSegments data)) processes b.nextId words b.mem ∧
    Queue (processes ++ List.replicate entries.length (.kernelProcess kernel)) (bootContexts programs entries) words b
  files : Opened v ds b.vfs

theorem length_bootContexts (programs : List (List UInt8)) (entries : List (BitVec 64)) :
    (bootContexts programs entries).length = programs.length + entries.length := by
  unfold bootContexts
  rw [List.length_append, List.length_map, List.length_map, List.length_zipIdx]

theorem bootContexts_program (programs : List (List UInt8)) (data : List UInt8) :
    bootContexts (programs ++ [data]) [] = bootContexts programs [] ++ [programContext data] := by
  unfold bootContexts
  rw [List.zipIdx_nil, List.zipIdx_nil, List.map_nil, List.append_nil, List.append_nil, List.map_append]
  rfl

theorem bootContexts_task (programs : List (List UInt8)) (entries : List (BitVec 64)) (entry : BitVec 64) :
    bootContexts programs (entries ++ [entry]) = bootContexts programs entries ++
      [kernelContext entry.toNat (stackTop ((bootContexts programs entries).length + 1))] := by
  rw [length_bootContexts]
  unfold bootContexts
  rw [List.zipIdx_append, List.map_append, List.append_assoc, Nat.add_right_comm, Nat.add_right_comm]
  rfl

/-- A task of the kernel is started. -/
theorem startTask_ends (hc : c.Lawful) (h : BootInv kernel start v programs entries ds b)
    (hfew : programs.length + entries.length ≤ 8) (entry : BitVec 64) :
    Ends (startTask c kernel entry) b (fun _ b' => BootInv kernel start v programs (entries ++ [entry]) ds b')
      fun b' => b'.mem.frames = [] := by
  obtain ⟨⟨processes, words, hmem, hqueue⟩, hfiles⟩ := h
  rw [← length_bootContexts] at hfew
  unfold startTask Task.new
  refine (spawn_ends (fun id => kernelContext entry.toNat (stackTop id)) hmem hqueue hfew
    (fun kind hregion => mapKernelTaskStack_ready hc hregion (few_pages hqueue.next hfew) (List.Subset.refl _))
    rfl (newFrame_small (Nat.le_of_ble_eq_true rfl) (Nat.le_of_ble_eq_true rfl) (Nat.le_of_ble_eq_true rfl)
      (stackTop_small hqueue.next hfew) entry.isLt)).mono ?_ fun _ h => h
  rintro _ b' ⟨words', hmem', hqueue', hvfs⟩
  refine ⟨⟨processes, words', hmem', ?_⟩, hvfs ▸ hfiles⟩
  rw [bootContexts_task, List.length_append, List.length_singleton, List.replicate_succ', ← List.append_assoc,
    ← hqueue.next]
  exact hqueue'

theorem canonical_small {a : Nat} (h : canonical a = true) : a < 2 ^ 64 := by
  rw [canonical_iff] at h
  omega

theorem userContext_small {process : Process} {data : List UInt8} (h : userContext process = programContext data)
    (hfit : AddressesFit data) : process.entryPoint < 2 ^ 64 ∧ process.stackTop < 2 ^ 64 := by
  have hrip : process.entryPoint = (programContext data).rip := congrArg Context.rip h
  have hrsp : process.stackTop = (programContext data).rsp := congrArg Context.rsp h
  rw [hrip, hrsp]
  unfold programContext
  rcases hheader : parseHeader data with e | header
  · exact ⟨by show 0 < 2 ^ 64; decide, by show 0x700000008000 < 2 ^ 64; decide⟩
  · exact ⟨canonical_small (hfit header hheader).1, by show 0x700000008000 < 2 ^ 64; decide⟩

/-- A program is started. -/
theorem startProgram_ends (hc : c.Lawful) (h : BootInv kernel start v programs [] ds b) (hfew : programs.length ≤ 8)
    {data : List UInt8} (hfit : AddressesFit data) (hloads : loads data = true) :
    Ends (startProgram c kernel data) b (fun _ b' => BootInv kernel start v (programs ++ [data]) [] ds b')
      fun b' => b'.mem.frames = [] := by
  obtain ⟨⟨processes, words, hmem, hqueue⟩, hfiles⟩ := h
  have hfew' : (bootContexts programs []).length ≤ 8 := by
    rw [length_bootContexts]
    exact hfew
  unfold startProgram
  rw [ends_bind, onMem, ends_zoom]
  refine (Memory.load hc hmem hfit hloads).mono ?_ fun _ h => h
  rintro _ mem ⟨process, rfl, hctx, hmem₁⟩
  obtain ⟨hentry, hstack⟩ := userContext_small hctx hfit
  dsimp only
  have hqueue₁ : Queue (processes ++ List.replicate 0 (.kernelProcess kernel)) (bootContexts programs []) words
      { b with mem := mem } := ⟨hqueue.next, hqueue.ids, hqueue.ready, hqueue.owners, hqueue.placed⟩
  unfold Task.newUser
  refine (spawn_ends (fun _ => userContext process) hmem₁ hqueue₁ hfew'
    (fun kind hregion => mapUserTaskStack_ready hc ?_ hregion (few_pages hqueue.next hfew') (List.Subset.refl _))
    rfl (newFrame_small (Nat.le_of_ble_eq_true rfl) (Nat.le_of_ble_eq_true rfl) (Nat.le_of_ble_eq_true rfl)
      hstack hentry)).mono ?_ fun _ h => h
  · exact List.mem_map_of_mem (List.mem_append_right _ List.mem_cons_self)
  · rintro _ b' ⟨words', hmem', hqueue', hvfs⟩
    refine ⟨⟨processes ++ [process], words', ?_, ?_⟩, hvfs ▸ hfiles⟩
    · rw [List.map_append]
      exact hmem'
    · rw [bootContexts_program, ← hctx]
      rw [List.replicate_zero, List.append_nil] at hqueue'
      rw [List.length_nil, List.replicate_zero, List.append_nil]
      exact hqueue'

/-- A file is read. -/
theorem BootInv.readFile (h : BootInv kernel start v programs entries ds b) (hds : ds.length < maxOpenFiles)
    {name : String} (hfile : name ∈ bootFiles) :
    Ends (readFile room name) b
      (fun r b' => r = v.contents name ∧
        BootInv kernel start v programs entries (ds ++ (readDescriptor v name).toList) b')
      (OutOfMemory room v) := by
  obtain ⟨⟨processes, words, hmem, hqueue⟩, hfiles⟩ := h
  refine (ends_readFile hfiles hds hfile).mono ?_ fun _ h => h
  rintro r _ ⟨hr, vfs, rfl, hfiles'⟩
  exact ⟨hr, ⟨processes, words, hmem, hqueue.next, hqueue.ids, hqueue.ready, hqueue.owners, hqueue.placed⟩, hfiles'⟩

theorem startFile_ends (hc : c.Lawful) (h : BootInv kernel start v programs [] ds b) (hds : ds.length < maxOpenFiles)
    (hfew : programs.length ≤ 8) {name : String} (hfile : name ∈ bootFiles)
    (hgood : ∀ data, v.contents name = some data → AddressesFit data ∧ loads data = true) :
    Ends (startFile c room kernel name) b
      (fun _ b' => BootInv kernel start v (programs ++ (v.contents name).toList) []
        (ds ++ (readDescriptor v name).toList) b')
      (OutOfMemory room v) := by
  unfold startFile
  rw [ends_bind]
  refine (BootInv.readFile h hds hfile).mono ?_ fun _ h => h
  rintro r b₁ ⟨rfl, h₁⟩
  rcases hdata : v.contents name with _ | data
  · rw [Option.toList_none, List.append_nil]
    exact h₁
  · obtain ⟨hfit, hloads⟩ := hgood data hdata
    exact (startProgram_ends hc h₁ hfew hfit hloads).mono (fun _ _ h => h) fun _ h => .inl h

theorem length_toList_le {α : Type} (o : Option α) : o.toList.length ≤ 1 := by
  cases o with
  | none => exact Nat.zero_le 1
  | some a => exact Nat.le_refl 1

/-- The programs are started. -/
theorem startPrograms_ends (hc : c.Lawful) (h : BootInv kernel start v [] [] ds b) (hds : ds.length ≤ 1)
    (hgood : ∀ data ∈ bootPrograms v, AddressesFit data ∧ loads data = true) :
    Ends (startPrograms c room kernel) b
      (fun _ b' => BootInv kernel start v (bootPrograms v) []
        (ds ++ ((readDescriptor v "init").toList ++ if (v.contents "init").isSome then
          (readDescriptor v "shell").toList ++ (readDescriptor v "fault-tester").toList else [])) b')
      (OutOfMemory room v) := by
  have hinit := length_toList_le (readDescriptor v "init")
  have hshell := length_toList_le (readDescriptor v "shell")
  unfold startPrograms
  rw [ends_bind]
  refine (BootInv.readFile h (by unfold maxOpenFiles; omega) (by decide)).mono ?_ fun _ h => h
  rintro r b₁ ⟨rfl, h₁⟩
  unfold bootPrograms at hgood ⊢
  rcases hdata : v.contents "init" with _ | data <;> rw [hdata] at hgood
  · simp only [Option.isSome_none, Bool.false_eq_true, ↓reduceIte, List.append_nil]
    exact h₁
  · simp only [Option.isSome_some, ↓reduceIte]
    obtain ⟨hfit, hloads⟩ := hgood data List.mem_cons_self
    rw [ends_bind]
    refine (startProgram_ends hc h₁ (Nat.zero_le _) hfit hloads).mono ?_ fun _ h => .inl h
    intro _ b₂ h₂
    rw [ends_bind]
    refine (startFile_ends hc h₂ ?_ (Nat.le_of_ble_eq_true rfl) (by decide) fun data hdata => hgood data ?_).mono ?_
      fun _ h => h
    · rw [List.length_append]
      unfold maxOpenFiles
      omega
    · exact List.mem_cons_of_mem _ (List.mem_append_left _ (Option.mem_toList.mpr hdata))
    · intro _ b₃ h₃
      refine (startFile_ends hc h₃ ?_ ?_ (by decide) fun data hdata => hgood data ?_).mono ?_ fun _ h => h
      · rw [List.length_append, List.length_append]
        unfold maxOpenFiles
        omega
      · rw [List.length_append]
        exact Nat.add_le_add (Nat.le_refl 1) (Nat.le_trans (length_toList_le _) (by decide : 1 ≤ 7))
      · exact List.mem_cons_of_mem _ (List.mem_append_right _ (Option.mem_toList.mpr hdata))
      · intro _ b₄ h₄
        simpa only [List.append_assoc, List.nil_append, List.cons_append] using h₄

/-- The font is read. A font that stops the kernel is excluded. -/
theorem startConsole_ends (h : BootInv kernel start v [] [] [] b)
    (hfont : ∀ data, v.contents "font.psf" = some data → ∃ font, Psf2Font.new data = .ok font) :
    Ends (startConsole room) b (fun _ b' => BootInv kernel start v [] [] (readDescriptor v "font.psf").toList b')
      (OutOfMemory room v) := by
  unfold startConsole
  rw [ends_bind]
  refine (BootInv.readFile h (by decide) (by decide)).mono ?_ fun _ h => h
  rintro r b₁ ⟨rfl, h₁⟩
  rcases hdata : v.contents "font.psf" with _ | data
  · exact h₁
  · obtain ⟨font, hfont⟩ := hfont data hdata
    dsimp only
    rw [ends_bind]
    refine ends_allocate ?_ fun _ hfull => .inr ⟨"font.psf", by decide, data, hdata, hfull⟩
    unfold initConsole
    rw [hfont]
    cases font with
    | none => exact h₁
    | some font =>
      obtain ⟨⟨processes, words, hmem, hqueue⟩, hfiles⟩ := h₁
      exact ⟨⟨processes, words, hmem, hqueue.next, hqueue.ids, hqueue.ready, hqueue.owners, hqueue.placed⟩, hfiles⟩

theorem length_bootPrograms_le (v : Vfs) : (bootPrograms v).length ≤ 3 := by
  have hshell := length_toList_le (v.contents "shell")
  have hfault := length_toList_le (v.contents "fault-tester")
  unfold bootPrograms
  cases v.contents "init" with
  | none => exact Nat.zero_le 3
  | some data =>
    rw [List.length_cons, List.length_append]
    omega

/-- What is on a stack can be read with the page tables of every process. -/
theorem readWord_shared {top : Table} {pml4s : List Frame} {low bound : Nat} {words : List (Nat × Nat)}
    {kind : Frame → Kind} {s : PhysMem} (h : StackRegion kernel top pml4s low bound words kind s) {r : Frame}
    (hr : r ∈ kernel :: pml4s) {va word : Nat} (hx : (va, word) ∈ words) : readWord s.ram r va = some word := by
  obtain ⟨hva, hread⟩ := h.words _ hx
  obtain ⟨m, hm, hpage⟩ := StackWord.page hva h.small
  have hread' : readWord s.ram kernel va = some word := hread
  rw [← hread']
  unfold readWord
  rw [hpage, walk_shared h.toKernelInv hr hm]

/-- The state at the end. -/
theorem booted_of_inv {tasks : KernelTasks}
    (h : BootInv kernel start v (bootPrograms v) [tasks.heartbeat, tasks.worker, tasks.idle] (bootDescriptors v) b)
    (hhidden : Hidden start.ram kernel) : Booted kernel start v tasks b := by
  obtain ⟨⟨processes, words, ⟨kind, owners, hprograms, -, hregion⟩, hqueue⟩, hfiles⟩ := h
  have hpml4 : ∀ task ∈ b.kernel.sched.tasks, task.process.pml4 ∈ kernel :: processes.map Process.pml4 := by
    intro task htask
    have hmem : task.process ∈ b.kernel.sched.tasks.map Task.process := List.mem_map_of_mem htask
    rw [hqueue.owners] at hmem
    rcases List.mem_append.mp hmem with hmem | hmem
    · exact List.mem_cons_of_mem _ (List.mem_map_of_mem hmem)
    · rw [List.eq_of_mem_replicate hmem, Process.kernelProcess, pml4_of_toNat]
      exact List.mem_cons_self
  constructor
  case ids =>
    rw [hqueue.ids, length_bootContexts]
    rfl
  case ready => exact hqueue.ready
  case contexts =>
    refine ((List.forall₂_and_left _ _).mpr ⟨hpml4, hqueue.placed⟩).imp fun task ctx htask i word hword => ?_
    exact readWord_shared hregion htask.1 (htask.2 i word hword)
  case programs => exact ⟨processes, hqueue.owners, ProgramInv.separate hprograms hhidden⟩
  case files => exact hfiles.entries
  case descriptors => exact hfiles.descriptors

end Sequence

/-- Boot ends in that state, or it runs out of memory. -/
theorem ends_earlyBoot {c : Mapper} (hc : c.Lawful) (room : Boot → Nat → Bool) {kernel : Frame} {b : Boot}
    (hboot : BootTables kernel b.mem)
    (hsupervisor : ∀ i : Fin 512, 256 ≤ i.val → (b.mem.ram kernel i).flags.isUser = false)
    (hvfs : b.vfs = .new) (hqueue : b.kernel.sched.tasks = []) (hnext : b.nextId = 1)
    {ramdiskAddr : Nat} {ramdisk : List UInt8} {v : Vfs}
    (hramdisk : Vfs.new.initFromRamdisk ramdiskAddr ramdisk = .ok v)
    (hfont : ∀ data, v.contents "font.psf" = some data → ∃ font, Psf2Font.new data = .ok font)
    (hprograms : ∀ data ∈ bootPrograms v, AddressesFit data ∧ loads data = true) (tasks : KernelTasks) :
    Ends (earlyBoot c room kernel ramdiskAddr ramdisk tasks) b
      (fun _ b' => ∃ start, (initKernelSpace c kernel).result b.mem = some ((), start) ∧
        Booted kernel start v tasks b')
      (OutOfMemory room v) := by
  unfold earlyBoot
  rw [ends_bind, onMem, ends_zoom]
  refine (Ends.with_result (memory_init hc hboot)).mono ?_ fun _ h => .inl h
  rintro _ start ⟨hstart, hmem, huser⟩
  have hinit : BootInv kernel start v [] [] [] { b with mem := start, vfs := v } := by
    refine ⟨⟨[], [], hnext ▸ hmem, ?_⟩, rfl, fun j => ?_⟩
    · exact ⟨hnext, congrArg (List.map Task.id) hqueue, fun task htask => absurd (hqueue ▸ htask) List.not_mem_nil,
        congrArg (List.map Task.process) hqueue, by rw [hqueue]; exact .nil⟩
    · rw [RamdiskLemmas.openFiles_initFromRamdisk hramdisk]
      rfl
  unfold initVfs
  rw [ends_bind, ends_bind, ends_get]
  dsimp only
  rw [hvfs, hramdisk]
  dsimp only
  rw [ends_modify, ends_bind]
  refine (startConsole_ends hinit hfont).mono (fun _ b₁ h₁ => ?_) fun _ h => h
  rw [ends_bind]
  refine (startPrograms_ends hc h₁ (length_toList_le _) hprograms).mono (fun _ b₂ h₂ => ?_) fun _ h => h
  have hfew := length_bootPrograms_le v
  rw [ends_bind]
  refine (startTask_ends hc h₂ (Nat.le_trans hfew (by decide)) tasks.heartbeat).mono (fun _ b₃ h₃ => ?_)
    fun _ h => .inl h
  rw [ends_bind]
  refine (startTask_ends hc h₃ (Nat.add_le_add hfew (by decide : 1 ≤ 5)) tasks.worker).mono (fun _ b₄ h₄ => ?_)
    fun _ h => .inl h
  refine (startTask_ends hc h₄ (Nat.add_le_add hfew (by decide : 2 ≤ 5)) tasks.idle).mono (fun _ b₅ h₅ => ?_)
    fun _ h => .inl h
  refine ⟨start, hstart, booted_of_inv ?_ (hidden_init hsupervisor huser)⟩
  unfold bootDescriptors
  rw [List.append_assoc]
  exact h₅

end BootLemmas

open BootLemmas

/-- If the loader accepts the programs and the font does not stop the kernel, then boot ends with one task for each
program and three of the kernel, unless it runs out of memory. -/
theorem early_boot_starts {c : Mapper} (hc : c.Lawful) {room : Boot → Nat → Bool} {kernel : Frame} {b : Boot}
    (hboot : BootTables kernel b.mem)
    (hsupervisor : ∀ i : Fin 512, 256 ≤ i.val → (b.mem.ram kernel i).flags.isUser = false)
    (hvfs : b.vfs = .new) (hqueue : b.kernel.sched.tasks = []) (hnext : b.nextId = 1)
    {ramdiskAddr : Nat} {ramdisk : List UInt8} {v : Vfs}
    (hramdisk : Vfs.new.initFromRamdisk ramdiskAddr ramdisk = .ok v)
    (hfont : ∀ data, v.contents "font.psf" = some data → ∃ font, Psf2Font.new data = .ok font)
    (hprograms : ∀ data ∈ bootPrograms v, AddressesFit data ∧ loads data = true) (tasks : KernelTasks) :
    (∀ b', (earlyBoot c room kernel ramdiskAddr ramdisk tasks).result b = some ((), b') →
      ∃ start, (initKernelSpace c kernel).result b.mem = some ((), start) ∧ Booted kernel start v tasks b') ∧
    ((earlyBoot c room kernel ramdiskAddr ramdisk tasks b).1.isNone = true →
      OutOfMemory room v (earlyBoot c room kernel ramdiskAddr ramdisk tasks b).2) := by
  have hends := ends_earlyBoot hc room hboot hsupervisor hvfs hqueue hnext hramdisk hfont hprograms tasks
  exact ⟨fun _ hresult => hends.returns hresult, fun hnone => hends.panics hnone⟩

/-- The state that boot starts from, with 160 frames. -/
def bareBoot : Boot :=
  ⟨{ sampleBoot with frames := (List.range' 16 160).map (BitVec.ofNat 40) }, .new, ⟨⟨"", []⟩, none⟩,
    ⟨Scheduler.new, 0, ⟨1, 0, 0⟩⟩, 1⟩

theorem bareBoot_tables : BootTables 1 bareBoot.mem where
  nodup := by decide +kernel
  apart := by decide +kernel
  heapRegion := rfl
  stackRegion := rfl

/-- A font of one glyph. -/
def bootFont : List UInt8 := fontHeader 32 1 8 8 8 ++ List.replicate 8 0x3c

/-- A ramdisk with a font and two programs. -/
def bootDisk : List RamdiskFile := [⟨"font.psf", bootFont⟩, ⟨"init", meetingElf⟩, ⟨"shell", meetingElf⟩]

def sampleTasks : KernelTasks := ⟨0xFFFFFFFF80001000, 0xFFFFFFFF80002000, 0xFFFFFFFF80003000⟩

/-- What the kernel makes of it. -/
def bootVfs : Vfs := { Vfs.new with entries := defaultEntries ++ bootDisk.map RamdiskFile.entry }

theorem bootDisk_decoded : Vfs.new.initFromRamdisk 0x100000 (ramdiskImage bootDisk) = .ok bootVfs := by
  have hstorable : ∀ f ∈ bootDisk, f.Storable := by
    intro f hf
    simp only [bootDisk, List.mem_cons, List.not_mem_nil, or_false] at hf
    rcases hf with rfl | rfl | rfl <;> exact ⟨by decide +kernel, by decide +kernel⟩
  exact RamdiskLemmas.initFromRamdisk_image .new (by decide) hstorable (by decide +kernel)

theorem early_boot_starts_two : ∃ start b,
    (earlyBoot plainMapper (fun _ _ => true) 1 0x100000 (ramdiskImage bootDisk) sampleTasks).result bareBoot =
      some ((), b) ∧
    bootPrograms bootVfs = [meetingElf, meetingElf] ∧ Booted 1 start bootVfs sampleTasks b := by
  have hruns : ((earlyBoot plainMapper (fun _ _ => true) 1 0x100000 (ramdiskImage bootDisk) sampleTasks).result
      bareBoot).isSome = true := by
    decide +kernel
  have hsupervisor : ∀ i : Fin 512, 256 ≤ i.val → (bareBoot.mem.ram 1 i).flags.isUser = false := by decide +kernel
  have hcontents : bootVfs.contents "font.psf" = some bootFont := by decide +kernel
  have hfont : (Psf2Font.new bootFont).toOption.isSome = true := by decide +kernel
  have hprograms : bootPrograms bootVfs = [meetingElf, meetingElf] := by decide +kernel
  have hloads : loads meetingElf = true := by decide +kernel
  obtain ⟨⟨u, b⟩, hb⟩ := Option.isSome_iff_exists.mp hruns
  have haccepted : ∀ data, bootVfs.contents "font.psf" = some data → ∃ font, Psf2Font.new data = .ok font := by
    intro data hdata
    rw [hcontents] at hdata
    cases hdata
    cases hnew : Psf2Font.new bootFont with
    | ok font => exact ⟨font, rfl⟩
    | error p =>
      rw [hnew] at hfont
      cases hfont
  have hgood : ∀ data ∈ bootPrograms bootVfs, AddressesFit data ∧ loads data = true := by
    intro data hdata
    rw [hprograms, List.mem_cons, List.mem_singleton, or_self] at hdata
    rw [hdata]
    exact ⟨meetingElf_fits, hloads⟩
  have hboth := @early_boot_starts plainMapper plainMapper_lawful (fun _ _ => true) 1 bareBoot bareBoot_tables
    hsupervisor rfl rfl rfl 0x100000 (ramdiskImage bootDisk) bootVfs bootDisk_decoded haccepted hgood sampleTasks
  obtain ⟨start, -, hbooted⟩ := hboth.1 b hb
  exact ⟨start, b, hb, hprograms, hbooted⟩

end Turnix
