import Turnix.Lib.Paging
import Turnix.Lib.PanicM
import Turnix.Scheduler

/-!
# Address spaces

`memory/paging.rs`, the parts of `process.rs`, `task/mod.rs` and `memory/heap.rs` that build page tables.
Physical memory is accessed by frame, as the kernel does through its map of all of it. The frame
allocator is the list of the frames that it is going to return; once it has failed it fails for good.

`OffsetPageTable` of the `x86_64` crate is a parameter, `Mapper`. What the code relies on is
`Mapper.Lawful`: `translate_addr` does what the hardware does on a page walk through regular tables, and `map_to`
does what `MapTo` allows.
-/

namespace Turnix

open Lib Lib.Paging

/-! ## The crate -/

/-- `OffsetPageTable`, on the PML4 in a frame. Pages are given by their number. -/
structure Mapper where
  translateAddr : Ram → Frame → Nat → Option Nat
  mapTo : Ram → Frame → Nat → Frame → Flags → List Frame → MapOutcome

/-- What its documentation says. An entry that has the flags already may stay unwritten. -/
structure Mapper.Lawful (c : Mapper) : Prop where
  translateAddr_eq : ∀ ram pml4 va, Regular ram 3 pml4 (va / 4096) →
    c.translateAddr ram pml4 va =
      (walk ram 3 pml4 (va / 4096)).map fun tr => tr.frame.toNat * 4096 + va % 4096
  mapTo_does : ∀ ram pml4 page frame flags frames, flags.isPresent = true → flags.isHuge = false →
    ∃ out, MapTo page frame flags 3 pml4 ram frames out ∧
      (c.mapTo ram pml4 page frame flags frames).ram = out.ram ∧
      (c.mapTo ram pml4 page frame flags frames).frames = out.frames ∧
      (c.mapTo ram pml4 page frame flags frames).result = out.result ∧
      (c.mapTo ram pml4 page frame flags frames).writes ⊆ out.writes

/-- A mapper that does this, the entries above a leaf getting just the rights of the leaf. -/
def plainMapper : Mapper where
  translateAddr ram pml4 va :=
    (walk ram 3 pml4 (va / 4096)).map fun tr => tr.frame.toNat * 4096 + va % 4096
  mapTo ram pml4 page frame flags frames := mapPage page frame flags 3 pml4 ram frames

theorem plainMapper_lawful : plainMapper.Lawful where
  translateAddr_eq _ _ _ _ := rfl
  mapTo_does ram pml4 _ _ _ frames _ _ :=
    ⟨_, mapPage_mapTo 3 pml4 ram frames, rfl, rfl, rfl, List.Subset.refl _⟩

/-! ## State -/

/-- Physical memory, the frames that the allocator has left, and a record of what was written, of the pages
that were mapped and of the ranges of a slice that were read through a raw pointer. -/
structure PhysMem where
  ram : Ram
  frames : List Frame
  writes : List Span
  mapped : List (Nat × Flags)
  reads : List Span

/-- `allocate_frame`. -/
def allocateFrame : PanicM PhysMem (Option Frame) := fun s =>
  match s.frames with
  | [] => (some none, s)
  | f :: frames => (some (some f), { s with frames := frames })

/-- Assign an entry. -/
def setEntry (f : Frame) (i : Fin 512) (e : Entry) : PanicM PhysMem Unit :=
  .modify fun s => { s with ram := s.ram.set f i e, writes := s.writes ++ [entrySpan f i] }

/-- Fill a table. -/
def setTable (f : Frame) (t : Table) : PanicM PhysMem Unit :=
  .modify fun s => { s with ram := s.ram.setTable f t, writes := s.writes ++ [frameSpan f] }

/-- The record of a page that was mapped. -/
def mapLog (page : Nat) (flags : Flags) : Except MapToError Unit → List (Nat × Flags)
  | .ok () => [(page, flags)]
  | .error _ => []

/-- `map_to`. It asserts that a leaf does not get the flag of a large page. -/
def mapTo (c : Mapper) (pml4 : Frame) (page : Nat) (frame : Frame) (flags : Flags) :
    PanicM PhysMem (Except MapToError Unit) := fun s =>
  if flags.isHuge then (none, s)
  else
    let out := c.mapTo s.ram pml4 page frame flags s.frames
    (some out.result, { s with
      ram := out.ram
      frames := out.frames
      writes := s.writes ++ out.writes
      mapped := s.mapped ++ mapLog page flags out.result })

/-- `.expect(..)` of a result. -/
def expectOk : Except MapToError Unit → PanicM PhysMem Unit
  | .ok () => pure ()
  | .error _ => .fail

/-! ## Virtual addresses -/

/-- The physical address that a virtual address leads to. -/
def physAddr (ram : Ram) (pml4 : Frame) (va : Nat) : Option Nat :=
  (walk ram 3 pml4 (va / 4096)).map fun tr => tr.frame.toNat * 4096 + va % 4096

/-- The sixteen high bits repeat bit 47. -/
def canonical (a : Nat) : Bool := a < 2 ^ 47 ∨ (2 ^ 64 - 2 ^ 47 ≤ a ∧ a < 2 ^ 64)

/-- `VirtAddr::new`. -/
def virtAddr (a : Nat) : PanicM PhysMem Nat := do
  PanicM.ensure (canonical a)
  return a

/-- `VirtAddr + u64`. -/
def addAddr (a n : Nat) : PanicM PhysMem Nat := virtAddr (a + n)

/-- `VirtAddr - u64`. -/
def subAddr (a n : Nat) : PanicM PhysMem Nat := do
  PanicM.ensure (decide (n ≤ a))
  virtAddr (a - n)

/-- `PageRangeInclusive::next`, which moves its start before it returns a page, unless that page is the
last one of all. -/
def nextPage (page : Nat) : PanicM PhysMem Unit :=
  PanicM.ensure (decide (page = 2 ^ 52 - 1) || canonical ((page + 1) * 4096))

/-! ## `memory/paging.rs` -/

/-- `0..512`. -/
@[irreducible]
def tableIndices : List (Fin 512) := List.finRange 512

/-- `0..256`. -/
@[irreducible]
def lowerIndices : List (Fin 512) := (List.finRange 512).filter (·.val < 256)

/-- `create_process_pml4`; `cr3` is the frame in `CR3`. -/
def createProcessPml4 (cr3 : Frame) : PanicM PhysMem Frame := do
  let newFrame ← PanicM.expect (← allocateFrame)
  setTable newFrame fun _ => .unused
  let s ← PanicM.get
  setTable newFrame fun i => if 256 ≤ i.val then s.ram cr3 i else s.ram newFrame i
  return newFrame

/-- The leaf that `clone_table_level` makes. -/
def cloneLeaf (cow : Bool) (e : Entry) : Entry :=
  if cow then { e with flags := (e.flags.remove .writable).union .bit9 } else e

/-- The loop of `clone_table_level`: the new table, which nobody reads before the loop ends. -/
def cloneEntries (step : Entry → PanicM PhysMem Entry) (src : Frame) :
    List (Fin 512) → Table → PanicM PhysMem Table
  | [], dst => pure dst
  | i :: is, dst => do
    let s ← PanicM.get
    let e := s.ram src i
    if e = .unused then cloneEntries step src is (Function.update dst i .unused)
    else
      let e' ← step e
      cloneEntries step src is (Function.update dst i e')

/-- `clone_table_level`, with the indices of its loop as an argument. -/
def cloneTableOver (indices : List (Fin 512)) (cow : Bool) : Nat → Entry → PanicM PhysMem Entry
  | 0, src => pure (cloneLeaf cow src)
  | level + 1, src => do
    let newFrame ← PanicM.expect (← allocateFrame)
    -- `set_frame` and `frame` panic for an entry of a large page, `frame` also for one not present
    PanicM.ensure (!src.flags.isHuge)
    PanicM.ensure src.flags.isPresent
    let s ← PanicM.get
    let table ← cloneEntries (cloneTableOver indices cow level) src.frame indices (s.ram newFrame)
    setTable newFrame table
    return ⟨src.flags, newFrame⟩

/-- `clone_table_level`: the entry for the clone. -/
def cloneTableLevel (cow : Bool) (level : Nat) (src : Entry) : PanicM PhysMem Entry :=
  cloneTableOver tableIndices cow level src

/-- The first loop of `clone_user_mappings_cow`. -/
def cloneLowerHalf (src dst : Frame) : List (Fin 512) → PanicM PhysMem Unit
  | [] => pure ()
  | i :: is => do
    let s ← PanicM.get
    if s.ram src i = .unused then cloneLowerHalf src dst is
    else
      let e ← cloneTableLevel true 3 (s.ram src i)
      setEntry dst i e
      cloneLowerHalf src dst is

/-- `clone_user_mappings_cow`. -/
def cloneUserMappingsCow (src dst : Frame) : PanicM PhysMem Unit := do
  cloneLowerHalf src dst lowerIndices
  let s ← PanicM.get
  setTable dst fun i => if 256 ≤ i.val then s.ram src i else s.ram dst i

/-! ## `process.rs` -/

/-- The frame of the PML4. -/
def Process.pml4 (process : Process) : Frame := BitVec.ofNat 40 process.pml4Frame

/-- `Process::fork`. -/
def Process.fork (cr3 : Frame) (process : Process) : PanicM PhysMem Process := do
  let pml4Frame ← createProcessPml4 cr3
  cloneUserMappingsCow process.pml4 pml4Frame
  return { process with pml4Frame := pml4Frame.toNat }

/-- The loop of `map_user_region` over `count` pages. -/
def mapUserPages (c : Mapper) (pml4 : Frame) (flags : Flags) : Nat → Nat → PanicM PhysMem Unit
  | 0, _ => pure ()
  | count + 1, page => do
    nextPage page
    let s ← PanicM.get
    match c.translateAddr s.ram pml4 (page * 4096) with
    | some _ => pure ()
    | none =>
      let frame ← PanicM.expect (← allocateFrame)
      expectOk (← mapTo c pml4 page frame flags)
    mapUserPages c pml4 flags count (page + 1)

/-- `Process::map_user_region`. -/
def mapUserRegion (c : Mapper) (pml4 : Frame) (virtStart size : Nat) (extraFlags : Flags) :
    PanicM PhysMem Unit := do
  let flags := (Flags.present.union .user).union extraFlags
  let last ← subAddr (← addAddr virtStart size) 1
  mapUserPages c pml4 flags (last / 4096 + 1 - virtStart / 4096) (virtStart / 4096)
  let p4Idx := index 3 (virtStart / 4096)
  let s ← PanicM.get
  let e := s.ram pml4 p4Idx
  setEntry pml4 p4Idx { e with flags := e.flags.union .user }

/-! ## `task/mod.rs` and `memory/heap.rs` -/

/-- `PRESENT | WRITABLE`, with which the kernel maps its own pages. -/
def kernelFlags : Flags := Flags.present.union .writable

/-- The number of the page at `KERNEL_STACK_REGION_BASE`. -/
def anchorPage : Nat := 0xFFFFFE0000000000 / 4096

/-- `init_kernel_stack_region`. -/
def initKernelStackRegion (c : Mapper) (pml4 : Frame) : PanicM PhysMem Unit := do
  let s ← PanicM.get
  match c.translateAddr s.ram pml4 (anchorPage * 4096) with
  | some _ => pure ()
  | none =>
    let frame ← PanicM.expect (← allocateFrame)
    -- an error is ignored
    let _ ← mapTo c pml4 anchorPage frame kernelFlags

/-- `init_heap`, the loop over its pages; an error ends it. -/
def mapHeapPages (c : Mapper) (pml4 : Frame) : Nat → Nat → PanicM PhysMem (Except MapToError Unit)
  | 0, _ => pure (.ok ())
  | count + 1, page => do
    nextPage page
    match ← allocateFrame with
    | none => pure (.error .frameAllocationFailed)
    | some frame =>
      match ← mapTo c pml4 page frame kernelFlags with
      | .error e => pure (.error e)
      | .ok () => mapHeapPages c pml4 count (page + 1)

/-- `init_heap`: 100 KiB from `HEAP_START` on. -/
def initHeap (c : Mapper) (pml4 : Frame) : PanicM PhysMem (Except MapToError Unit) :=
  mapHeapPages c pml4 25 (0xFFFFA00000000000 / 4096)

/-- The number of the first usable page of the stack of a task. -/
def stackPage (id : TaskId) : Nat := anchorPage + id * 10 + 1

/-- The loop of `Task::new` over `count` pages of the stack. -/
def mapStackPages (c : Mapper) (kernel : Frame) : Nat → Nat → PanicM PhysMem Unit
  | 0, _ => pure ()
  | count + 1, page => do
    nextPage page
    let frame ← PanicM.expect (← allocateFrame)
    expectOk (← mapTo c kernel page frame kernelFlags)
    mapStackPages c kernel count (page + 1)

/-- `Task::new`, the mapping of the stack; `kernel` is the PML4 of its mapper. -/
def mapKernelTaskStack (c : Mapper) (kernel : Frame) (id : TaskId) : PanicM PhysMem Unit :=
  mapStackPages c kernel 8 (stackPage id)

/-- The loop of `Task::new_user` over `count` pages: each one is mapped by the kernel's mapper and then by
that of the process, and errors are ignored. -/
def mapUserTaskPages (c : Mapper) (kernel pml4 : Frame) : Nat → Nat → PanicM PhysMem Unit
  | 0, _ => pure ()
  | count + 1, page => do
    nextPage page
    let frame ← PanicM.expect (← allocateFrame)
    let _ ← mapTo c kernel page frame kernelFlags
    let _ ← mapTo c pml4 page frame kernelFlags
    mapUserTaskPages c kernel pml4 count (page + 1)

/-- `Task::new_user`, the mapping of the stack. -/
def mapUserTaskStack (c : Mapper) (kernel pml4 : Frame) (id : TaskId) : PanicM PhysMem Unit :=
  mapUserTaskPages c kernel pml4 8 (stackPage id)

/-! ## Rules -/

theorem pml4_of_toNat (pml4 : Frame) (entry stackTop : Nat) :
    Process.pml4 ⟨pml4.toNat, entry, stackTop⟩ = pml4 := by
  unfold Process.pml4
  rw [BitVec.ofNat_toNat, BitVec.setWidth_eq]

section Rules

open PanicM

variable {α : Type} {s : PhysMem} {E : PhysMem → Prop}

theorem ends_allocateFrame {Q : Option Frame → PhysMem → Prop} : Ends allocateFrame s Q E ↔
    (s.frames = [] → Q none s) ∧
      ∀ f frames, s.frames = f :: frames → Q (some f) { s with frames := frames } := by
  unfold Ends allocateFrame
  rcases hs : s.frames with _ | ⟨f, frames⟩
  · exact ⟨fun h => ⟨fun _ => h, nofun⟩, fun h => h.1 rfl⟩
  · refine ⟨fun h => ⟨nofun, fun f' frames' heq => ?_⟩, fun h => h.2 f frames rfl⟩
    cases heq
    exact h

theorem ends_expect_allocateFrame {k : Frame → PanicM PhysMem α} {Q : α → PhysMem → Prop} :
    Ends (allocateFrame >>= fun o => PanicM.expect o >>= k) s Q E ↔
      (s.frames = [] → E s) ∧
        ∀ f frames, s.frames = f :: frames → Ends (k f) { s with frames := frames } Q E := by
  rw [ends_bind, ends_allocateFrame]
  exact Iff.rfl

theorem ends_setEntry {f : Frame} {i : Fin 512} {e : Entry} {Q : Unit → PhysMem → Prop} :
    Ends (setEntry f i e) s Q E ↔
      Q () { s with ram := s.ram.set f i e, writes := s.writes ++ [entrySpan f i] } := Iff.rfl

theorem ends_setTable {f : Frame} {t : Table} {Q : Unit → PhysMem → Prop} :
    Ends (setTable f t) s Q E ↔
      Q () { s with ram := s.ram.setTable f t, writes := s.writes ++ [frameSpan f] } := Iff.rfl

theorem ends_expectOk {r : Except MapToError Unit} {Q : Unit → PhysMem → Prop} :
    Ends (expectOk r) s Q E ↔ (r = .ok () → Q () s) ∧ ∀ e, r = .error e → E s := by
  rcases r with e | _
  · exact ⟨fun h => ⟨nofun, fun _ _ => h⟩, fun h => h.2 e rfl⟩
  · exact ⟨fun h => ⟨fun _ => h, nofun⟩, fun h => h.1 rfl⟩

theorem canonical_iff {a : Nat} :
    canonical a = true ↔ a < 2 ^ 47 ∨ (2 ^ 64 - 2 ^ 47 ≤ a ∧ a < 2 ^ 64) := by
  unfold canonical
  rw [decide_eq_true_iff]

theorem ends_virtAddr {a : Nat} {Q : Nat → PhysMem → Prop} :
    Ends (virtAddr a) s Q E ↔ (canonical a = true → Q a s) ∧ (canonical a = false → E s) := by
  unfold virtAddr
  rw [ends_bind, ends_ensure]
  exact Iff.rfl

theorem ends_subAddr {a n : Nat} {Q : Nat → PhysMem → Prop} : Ends (subAddr a n) s Q E ↔
    (n ≤ a ∧ canonical (a - n) = true → Q (a - n) s) ∧
      (¬ (n ≤ a ∧ canonical (a - n) = true) → E s) := by
  unfold subAddr
  rw [ends_bind, ends_ensure, ends_virtAddr, decide_eq_true_iff, decide_eq_false_iff_not]
  by_cases hn : n ≤ a <;> cases hc : canonical (a - n) <;> simp [hn]

theorem ends_nextPage {page : Nat} {Q : Unit → PhysMem → Prop} : Ends (nextPage page) s Q E ↔
    (page = 2 ^ 52 - 1 ∨ canonical ((page + 1) * 4096) = true → Q () s) ∧
      (¬ (page = 2 ^ 52 - 1 ∨ canonical ((page + 1) * 4096) = true) → E s) := by
  unfold nextPage
  rw [ends_ensure, ← Bool.not_eq_true, Bool.or_eq_true, decide_eq_true_iff]

section StackLoops

variable {c : Mapper} {kernel pml4 : Frame} {stop page : Nat} {I : Nat → PhysMem → Prop}

/-- The loop of `Task::new` keeps what each page keeps. -/
theorem ends_mapStackPages
    (hstep : ∀ n s frame frames, n < stop → I n s → s.frames = frame :: frames →
      Ends (mapTo c kernel (page + n) frame kernelFlags) { s with frames := frames }
        (fun _ s' => I (n + 1) s') fun _ => True) :
    ∀ (count n : Nat) {s : PhysMem}, n + count = stop → I n s →
      Ends (mapStackPages c kernel count (page + n)) s (fun _ s' => I stop s') fun _ => True
  | 0, n, s, hstop, h => by
    rw [← hstop]
    exact h
  | count + 1, n, s, hstop, h => by
    unfold mapStackPages
    rw [ends_bind, ends_nextPage]
    refine ⟨fun _ => ?_, fun _ => trivial⟩
    rw [ends_expect_allocateFrame]
    refine ⟨fun _ => trivial, fun frame frames hframes => ?_⟩
    rw [ends_bind]
    refine (hstep n s frame frames (by omega) h hframes).mono ?_ fun _ _ => trivial
    intro result s' h'
    rw [ends_bind, ends_expectOk]
    exact ⟨fun _ => ends_mapStackPages hstep count (n + 1) (by omega) h', fun _ _ => trivial⟩

/-- The loop of `Task::new_user`, which maps each page twice. -/
theorem ends_mapUserTaskPages
    (hstep : ∀ n s frame frames, n < stop → I n s → s.frames = frame :: frames →
      Ends (mapTo c kernel (page + n) frame kernelFlags) { s with frames := frames }
        (fun _ s₁ => Ends (mapTo c pml4 (page + n) frame kernelFlags) s₁
          (fun _ s' => I (n + 1) s') fun _ => True) fun _ => True) :
    ∀ (count n : Nat) {s : PhysMem}, n + count = stop → I n s →
      Ends (mapUserTaskPages c kernel pml4 count (page + n)) s (fun _ s' => I stop s') fun _ => True
  | 0, n, s, hstop, h => by
    rw [← hstop]
    exact h
  | count + 1, n, s, hstop, h => by
    unfold mapUserTaskPages
    rw [ends_bind, ends_nextPage]
    refine ⟨fun _ => ?_, fun _ => trivial⟩
    rw [ends_expect_allocateFrame]
    refine ⟨fun _ => trivial, fun frame frames hframes => ?_⟩
    rw [ends_bind]
    refine (hstep n s frame frames (by omega) h hframes).mono ?_ fun _ _ => trivial
    intro _ s₁ h₁
    rw [ends_bind]
    refine h₁.mono ?_ fun _ _ => trivial
    intro _ s' h'
    exact ends_mapUserTaskPages hstep count (n + 1) (by omega) h'

end StackLoops

theorem eq_of_mem_mapLog {page : Nat} {flags : Flags} {r : Except MapToError Unit} {m : Nat × Flags}
    (h : m ∈ mapLog page flags r) : m = (page, flags) := by
  rcases r with e | _
  · cases h
  · exact List.mem_singleton.mp h

/-- `map_to` does what `MapTo` allows. -/
theorem ends_mapTo_does {c : Mapper} {pml4 frame : Frame} {page : Nat} {flags : Flags}
    {Q : Except MapToError Unit → PhysMem → Prop} (hc : c.Lawful) (hp : flags.isPresent = true)
    (hh : flags.isHuge = false)
    (h : ∀ out writes, writes ⊆ out.writes → MapTo page frame flags 3 pml4 s.ram s.frames out →
      Q out.result { s with
        ram := out.ram
        frames := out.frames
        writes := s.writes ++ writes
        mapped := s.mapped ++ mapLog page flags out.result }) :
    Ends (mapTo c pml4 page frame flags) s Q E := by
  obtain ⟨out, hmap, hram, hframes, hresult, hwrites⟩ :=
    hc.mapTo_does s.ram pml4 page frame flags s.frames hp hh
  have hq := h out _ hwrites hmap
  unfold Ends mapTo
  rw [hh, if_neg Bool.false_ne_true]
  dsimp only
  rw [hram, hframes, hresult]
  exact hq

/-- A page is mapped through a known entry of a PML4. -/
theorem ends_mapTo {c : Mapper} {cover : Frame → Fin 512 → Prop} {kind : Frame → Kind}
    {pml4 frame : Frame} {page : Nat} {flags : Flags} {Q : Except MapToError Unit → PhysMem → Prop}
    (hc : c.Lawful) (hs : Shape cover kind s.ram) (hin : Holds cover kind 3 page pml4)
    (hspare : Spare kind page frame s.frames) (hp : flags.isPresent = true)
    (hE : flags.isHuge = true → E s)
    (h : ∀ kind' used out writes, writes ⊆ out.writes →
      MapTo page frame flags 3 pml4 s.ram s.frames out →
      MapEffect cover kind kind' page flags frame 3 pml4 s.ram s.frames used out →
      Q out.result { s with
        ram := out.ram
        frames := out.frames
        writes := s.writes ++ writes
        mapped := s.mapped ++ mapLog page flags out.result }) :
    Ends (mapTo c pml4 page frame flags) s Q E := by
  rcases hh : flags.isHuge with _ | _
  · refine ends_mapTo_does hc hp hh fun out writes hwrites hmap => ?_
    obtain ⟨kind', used, heffect⟩ := mapTo_effect hmap (Nat.le_refl 3) hp hs hin hspare
    exact h kind' used out writes hwrites hmap heffect
  · unfold Ends mapTo
    rw [if_pos hh]
    exact hE hh

end Rules

end Turnix
