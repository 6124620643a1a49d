import Turnix.CloneTables
import Turnix.Lib.PageView
import Turnix.Lib.Run

/-!
# The kernel half of the address spaces

The kernel makes its PML4 ready at boot and then creates and changes address spaces in any order:
`create_process_pml4`, `Process::fork`, `Task::new`, `Task::new_user` and `map_user_region`. A call
that panics is no step, as the kernel then halts.

The kernel half of a new PML4 is a copy of the entries of an older one. These point to tables that all
address spaces share, so what matters is that the entries never change again: the only one through which
pages are mapped later is that of the kernel stacks, and it has its table, and the flags of kernel
pages, from boot on. That is `SpaceInv.slot`, and `kernel_half_shared` follows.
-/

namespace Turnix

open Lib Lib.Paging PanicM

/-! ## Boot -/

/-- The entry of a PML4 for the kernel stacks. -/
def stackSlot : Fin 512 := 508

/-- The entry of a PML4 for the heap. -/
def heapSlot : Fin 512 := 320

/-- What the loader hands over: the two regions of the kernel are not in use, and the PML4 is no frame of
the allocator. -/
structure BootTables (kernel : Frame) (boot : PhysMem) : Prop where
  nodup : boot.frames.Nodup
  apart : kernel ∉ boot.frames
  heapRegion : boot.ram kernel heapSlot = .unused
  stackRegion : boot.ram kernel stackSlot = .unused

/-- The steps of `kernel_main` that map the heap and the anchor of the stacks. -/
def initKernelSpace (c : Mapper) (kernel : Frame) : PanicM PhysMem Unit := do
  expectOk (← initHeap c kernel)
  initKernelStackRegion c kernel

/-! ## Runs -/

/-- Memory and the PML4s of the processes. -/
structure Spaces where
  mem : PhysMem
  spaces : List Frame

/-- A call. `cr3` is the frame in `CR3` at the time. -/
inductive SpaceEvent
  | createProcessPml4 (cr3 : Frame)
  | fork (cr3 : Frame) (process : Process)
  | newTask (id : TaskId)
  | newUser (process : Process) (id : TaskId)
  | mapUserRegion (process : Process) (virtStart size : Nat) (extraFlags : Flags)

/-- What a call does. The stack of a task must lie in the region of the stacks, and what is mapped for a
user in the lower half. -/
def spaceStep (c : Mapper) (kernel : Frame) (m : Spaces) : SpaceEvent → Option Spaces
  | .createProcessPml4 cr3 =>
    if cr3 ∈ kernel :: m.spaces then
      ((createProcessPml4 cr3).result m.mem).map fun r => ⟨r.2, r.1 :: m.spaces⟩
    else none
  | .fork cr3 process =>
    if cr3 ∈ kernel :: m.spaces ∧ process.pml4 ∈ m.spaces then
      ((process.fork cr3).result m.mem).map fun r => ⟨r.2, r.1.pml4 :: m.spaces⟩
    else none
  | .newTask id =>
    if (id + 1) * 40960 ≤ 2 ^ 39 then
      ((mapKernelTaskStack c kernel id).result m.mem).map fun r => { m with mem := r.2 }
    else none
  | .newUser process id =>
    if process.pml4 ∈ kernel :: m.spaces ∧ (id + 1) * 40960 ≤ 2 ^ 39 then
      ((mapUserTaskStack c kernel process.pml4 id).result m.mem).map fun r => { m with mem := r.2 }
    else none
  | .mapUserRegion process virtStart size extraFlags =>
    if process.pml4 ∈ m.spaces ∧ 0 < size ∧ virtStart + size ≤ 2 ^ 47 then
      ((mapUserRegion c process.pml4 virtStart size extraFlags).result m.mem).map
        fun r => { m with mem := r.2 }
    else none

/-! ## The invariant -/

/-- The entries of PML4s through which pages are mapped. -/
def known (kernel r : Frame) (i : Fin 512) : Prop :=
  i = stackSlot ∨ (r = kernel ∧ i = heapSlot) ∨ (r ≠ kernel ∧ i.val < 256)

/-- All PML4s have the entries of `top` in the upper half. That of the stacks has its flags as long as a
frame is left, so mapping another stack does not change it. -/
structure SpaceInv (kernel : Frame) (top : Table) (spaces : List Frame) (kind : Frame → Kind)
    (s : PhysMem) : Prop where
  shape : Shape (known kernel) kind s.ram
  free : Free kind s.frames
  roots : ∀ r ∈ kernel :: spaces, kind r = .root
  apart : kernel ∉ spaces
  slot : s.frames ≠ [] → (top stackSlot).flags.union kernelFlags = (top stackSlot).flags
  upper : ∀ r ∈ kernel :: spaces, ∀ i, 256 ≤ i.val → s.ram r i = top i

/-- Of the region of the stacks the anchor is mapped and nothing else. -/
def AnchorOnly (kernel : Frame) (s : PhysMem) : Prop :=
  ∃ frame, s.frames ≠ [] → ∀ n < 2 ^ 27,
    leafAt s.ram 3 kernel (anchorPage + n) = if n = 0 then ⟨kernelFlags, frame⟩ else .unused

open RegionLemmas CloneLemmas

namespace SpaceLemmas

variable {c : Mapper} {kernel r f frame : Frame} {top : Table} {spaces : List Frame}
  {kind kind' : Frame → Kind} {s s' : PhysMem} {page : Nat}

theorem index_stack {n : Nat} (h : n < 2 ^ 27) : index 3 (anchorPage + n) = stackSlot := by
  refine Fin.ext ?_
  show (0xFFFFFE0000000000 / 4096 + n) / 512 ^ 3 % 512 = 508
  omega

theorem position_stack {m n : Nat} (hm : m < 2 ^ 27) (hn : n < 2 ^ 27) :
    position 0 (anchorPage + m) = position 0 (anchorPage + n) ↔ m = n := by
  rw [position_zero, position_zero]
  show (0xFFFFFE0000000000 / 4096 + m) % 512 ^ 4 = (0xFFFFFE0000000000 / 4096 + n) % 512 ^ 4 ↔ m = n
  omega

theorem index_heap {n : Nat} (h : n < 25) :
    index 3 (0xFFFFA00000000000 / 4096 + n) = heapSlot := by
  refine Fin.ext ?_
  show (0xFFFFA00000000000 / 4096 + n) / 512 ^ 3 % 512 = 320
  omega

/-- The frame rule: code that maps pages through entries of one PML4. -/
theorem SpaceInv.grows {pool : List Frame} {slots : Fin 512 → Prop}
    (h : SpaceInv kernel top spaces kind s)
    (hgrows : Grows (known kernel) pool r slots kind s kind' s')
    (hsame : ∀ i, 256 ≤ i.val → slots i → s'.ram r i = s.ram r i) :
    SpaceInv kernel top spaces kind' s' := by
  constructor
  case shape => exact hgrows.shape
  case free => exact hgrows.free
  case roots =>
    intro r hr
    exact hgrows.ext.root (h.roots r hr)
  case apart => exact h.apart
  case slot =>
    intro hne
    refine h.slot fun hnil => hne ?_
    exact List.suffix_nil.mp (hnil ▸ hgrows.left)
  case upper =>
    intro r' hr' i hi
    rw [← h.upper r' hr' i hi]
    by_cases heq : r' = r ∧ slots i
    · rw [heq.1]
      exact hsame i hi heq.2
    · exact hgrows.kept r' i (h.roots r' hr') heq

/-! ## Stacks -/

/-- An entry that has the flags of a kernel page is left as it is. -/
theorem Relinked.same {used : List Frame} {out : MapOutcome} {e e' : Entry}
    (h : Relinked kernelFlags used out e e') (he : e.flags.union kernelFlags = e.flags) : e' = e := by
  have hne : e ≠ .unused := by
    rintro rfl
    exact absurd he (by decide)
  cases h with
  | failed hfree => exact absurd hfree hne
  | linked w hflags hframe _ =>
    have hlink : tableFlags (w || kernelFlags.isWritable) kernelFlags.isUser = kernelFlags := by
      cases w <;> decide
    refine Entry.ext ?_ (hframe hne)
    rw [hflags, hlink, he]

/-- A page of a stack is mapped, through any PML4, to a frame that was taken before. -/
theorem SpaceInv.mapTo_stack {used : List Frame} {out : MapOutcome} {writes : List Span}
    (h : SpaceInv kernel top spaces kind s) (hr : r ∈ kernel :: spaces)
    (hspare : Spare kind page frame s.frames)
    (hslot : (top stackSlot).flags.union kernelFlags = (top stackSlot).flags)
    (hpage : index 3 page = stackSlot) (hwrites : writes ⊆ out.writes)
    (heffect : MapEffect (known kernel) kind kind' page kernelFlags frame 3 r s.ram s.frames used out) :
    SpaceInv kernel top spaces kind' { s with
      ram := out.ram
      frames := out.frames
      writes := s.writes ++ writes
      mapped := s.mapped ++ mapLog page kernelFlags out.result } := by
  have hgrows : Grows (known kernel) (frame :: s.frames) r (fun i => i = stackSlot) kind s kind' _ :=
    grows_mapTo h.shape (h.roots r hr) hspare hpage List.mem_cons_self (List.subset_cons_self _ _) hwrites
      heffect
  refine SpaceInv.grows h hgrows ?_
  rintro i hi rfl
  have hentry : s.ram r stackSlot = top stackSlot := h.upper r hr stackSlot (by decide)
  have hrel := heffect.entry (by decide)
  rw [hpage, hentry] at hrel
  rw [hentry]
  exact Relinked.same hrel hslot

theorem mapTo_stack_ends (hc : c.Lawful) (h : SpaceInv kernel top spaces kind s)
    (hr : r ∈ kernel :: spaces) (hspare : Spare kind page frame s.frames)
    (hslot : (top stackSlot).flags.union kernelFlags = (top stackSlot).flags)
    (hpage : index 3 page = stackSlot) :
    Ends (mapTo c r page frame kernelFlags) s
      (fun _ s' => ∃ kind', SpaceInv kernel top spaces kind' s' ∧ Spare kind' page frame s'.frames)
      fun _ => True := by
  have hin : Holds (known kernel) kind 3 page r := holds_root (h.roots r hr) (.inl hpage)
  refine ends_mapTo hc h.shape hin hspare (by decide) (fun _ => trivial)
    fun kind' used out writes hwrites _ heffect => ?_
  exact ⟨kind', SpaceInv.mapTo_stack h hr hspare hslot hpage hwrites heffect, heffect.spare hspare⟩

theorem SpaceInv.take {frames : List Frame} (h : SpaceInv kernel top spaces kind s)
    (hf : s.frames = f :: frames) : SpaceInv kernel top spaces kind { s with frames := frames } := by
  have hgrows : Grows (known kernel) [] kernel (fun _ => False) kind s kind
    { s with frames := frames } := grows_take h.shape h.free hf
  exact SpaceInv.grows h hgrows fun i _ hi => hi.elim

theorem SpaceInv.slot_of_left {frames : List Frame} (h : SpaceInv kernel top spaces kind s)
    (hframes : s.frames = f :: frames) : (top stackSlot).flags.union kernelFlags = (top stackSlot).flags :=
  h.slot (hframes ▸ List.cons_ne_nil f frames)

/-- A page of a stack is mapped in the kernel's tables, to the first of the frames that are left. -/
theorem mapTo_taken_ends {frames : List Frame} {page : Nat} (hc : c.Lawful) (h : SpaceInv kernel top spaces kind s)
    (hframes : s.frames = f :: frames) (hpage : index 3 page = stackSlot) :
    Ends (mapTo c kernel page f kernelFlags) { s with frames := frames }
      (fun _ s' => ∃ kind', SpaceInv kernel top spaces kind' s' ∧ Spare kind' page f s'.frames) fun _ => True :=
  mapTo_stack_ends hc (SpaceInv.take h hframes) List.mem_cons_self (Free.take (hframes ▸ h.free))
    (SpaceInv.slot_of_left h hframes) hpage

/-- `Task::new`. -/
theorem mapStackPages_ends (hc : c.Lawful) (h : SpaceInv kernel top spaces kind s) {count page : Nat}
    (hpages : ∀ n, n < count → index 3 (page + n) = stackSlot) :
    Ends (mapStackPages c kernel count page) s
      (fun _ s' => ∃ kind', SpaceInv kernel top spaces kind' s') fun _ => True := by
  refine @ends_mapStackPages c kernel count page (fun _ s => ∃ kind, SpaceInv kernel top spaces kind s)
    ?_ count 0 s (Nat.zero_add count) ⟨kind, h⟩
  rintro n s frame frames hn ⟨kind, h⟩ hframes
  refine (mapTo_taken_ends hc h hframes (hpages n hn)).mono ?_ fun _ _ => trivial
  rintro _ s' ⟨kind', h', -⟩
  exact ⟨kind', h'⟩

/-- `Task::new_user`. -/
theorem mapUserTaskPages_ends (hc : c.Lawful) (hr : r ∈ kernel :: spaces)
    (h : SpaceInv kernel top spaces kind s) {count page : Nat}
    (hpages : ∀ n, n < count → index 3 (page + n) = stackSlot) :
    Ends (mapUserTaskPages c kernel r count page) s
      (fun _ s' => ∃ kind', SpaceInv kernel top spaces kind' s') fun _ => True := by
  refine @ends_mapUserTaskPages c kernel r count page (fun _ s => ∃ kind, SpaceInv kernel top spaces kind s)
    ?_ count 0 s (Nat.zero_add count) ⟨kind, h⟩
  rintro n s frame frames hn ⟨kind, h⟩ hframes
  refine (mapTo_taken_ends hc h hframes (hpages n hn)).mono ?_ fun _ _ => trivial
  rintro _ s₁ ⟨kind₁, h₁, hspare₁⟩
  refine (mapTo_stack_ends hc h₁ hr hspare₁ (SpaceInv.slot_of_left h hframes) (hpages n hn)).mono ?_
    fun _ _ => trivial
  rintro _ s' ⟨kind', h', -⟩
  exact ⟨kind', h'⟩

theorem stackPages_slot {id : TaskId} (hid : (id + 1) * 40960 ≤ 2 ^ 39) {n : Nat} (hn : n < 8) :
    index 3 (stackPage id + n) = stackSlot := by
  have hid' : (Nat.add id 1) * 40960 ≤ 2 ^ 39 := hid
  rw [Nat.add_eq] at hid'
  unfold stackPage
  rw [Nat.add_assoc, Nat.add_assoc]
  exact index_stack (by omega)

/-! ## The other calls -/

theorem mem_spaces (hr : r ∈ kernel :: f :: spaces) (hne : r ≠ f) : r ∈ kernel :: spaces := by
  rcases List.mem_cons.mp hr with rfl | hr
  · exact List.mem_cons_self
  · exact List.mem_cons_of_mem _ ((List.mem_cons.mp hr).resolve_left hne)

theorem createProcessPml4_ends {cr3 : Frame} (h : SpaceInv kernel top spaces kind s)
    (hcr3 : cr3 ∈ kernel :: spaces) :
    Ends (createProcessPml4 cr3) s
      (fun f s' => ∃ kind', SpaceInv kernel top (f :: spaces) kind' s') fun _ => True := by
  rw [ends_createProcessPml4]
  refine ⟨fun _ => trivial, fun f frames hframes => ?_⟩
  have hfree : Free kind (f :: frames) := hframes ▸ h.free
  have hf : kind f = .other := hfree.other f List.mem_cons_self
  have hne : ∀ r ∈ kernel :: spaces, r ≠ f := by
    rintro r hr rfl
    rw [h.roots r hr] at hf
    cases hf
  refine ⟨Function.update kind f .root, ?_⟩
  constructor
  case shape =>
    refine shape_newPml4 h.shape hf fun i hi hcover _ => .inr ⟨rfl, rfl, h.roots cr3 hcr3, ?_⟩
    rcases hcover with hslot | ⟨heq, -⟩ | ⟨-, hlow⟩
    · exact .inl hslot
    · exact absurd heq.symm (hne kernel List.mem_cons_self)
    · omega
  case free => exact hfree.use .root
  case roots =>
    intro r hr
    by_cases heq : r = f
    · rw [heq, Function.update_self]
    · rw [Function.update_of_ne heq]
      exact h.roots r (mem_spaces hr heq)
  case apart =>
    rw [List.mem_cons, not_or]
    exact ⟨hne kernel List.mem_cons_self, h.apart⟩
  case slot => exact fun _ => h.slot (by rw [hframes]; nofun)
  case upper =>
    intro r hr i hi
    show s.ram.setTable f (newPml4 s.ram cr3 f) r i = top i
    unfold Ram.setTable newPml4
    by_cases heq : r = f
    · rw [heq, Function.update_self, if_pos ⟨hi, hne cr3 hcr3⟩]
      exact h.upper cr3 hcr3 i hi
    · rw [Function.update_of_ne heq]
      exact h.upper r (mem_spaces hr heq) i hi

theorem SpaceInv.ne_kernel (h : SpaceInv kernel top spaces kind s) (hr : r ∈ spaces) : r ≠ kernel := by
  rintro rfl
  exact h.apart hr

theorem forked_of_inv {cr3 : Frame} {process : Process} (h : SpaceInv kernel top spaces kind s)
    (hcr3 : cr3 ∈ kernel :: spaces) (hp : process.pml4 ∈ spaces) :
    Ends (process.fork cr3) s
      (fun child s' => ∃ kind', Forked (known kernel) kind s process.pml4 kind' s' child.pml4)
      fun _ => True := by
  have hne := SpaceInv.ne_kernel h hp
  have hother : ∀ f, kind f = .other → f ≠ kernel := by
    rintro f hf rfl
    rw [h.roots f List.mem_cons_self] at hf
    cases hf
  refine fork_ends h.shape h.free (h.roots cr3 hcr3) (h.roots _ (List.mem_cons_of_mem _ hp)) ?_ ?_
  · rintro f i (hf | rfl) hi
    · exact .inr (.inr ⟨hother f hf, hi⟩)
    · exact .inr (.inr ⟨hne, hi⟩)
  · rintro f i hf hi (hslot | ⟨heq, -⟩ | ⟨-, hlow⟩)
    · exact ⟨.inl hslot, .inl hslot⟩
    · exact absurd heq (hother f hf)
    · omega

theorem SpaceInv.fork {process : Process} (h : SpaceInv kernel top spaces kind s)
    (hp : process.pml4 ∈ spaces)
    (hforked : Forked (known kernel) kind s process.pml4 kind' s' f) :
    SpaceInv kernel top (f :: spaces) kind' s' := by
  have hcopies := hforked.copies
  have hf : kind f = .other := h.free.other f hforked.fresh
  have hused : ∀ r ∈ kernel :: spaces, kind r ≠ .other := fun r hr => ne_other_of_root (h.roots r hr)
  constructor
  case shape => exact hcopies.shape
  case free => exact hcopies.free
  case roots =>
    intro r hr
    by_cases heq : r = f
    · rw [heq]
      exact hforked.root
    · have hr' := mem_spaces hr heq
      exact (Copies.ext hcopies h.free r (hused r hr')).trans (h.roots r hr')
  case apart =>
    rw [List.mem_cons, not_or]
    refine ⟨?_, h.apart⟩
    rintro rfl
    exact hused kernel List.mem_cons_self hf
  case slot =>
    intro hne
    refine h.slot fun hnil => hne ?_
    exact List.suffix_nil.mp (hnil ▸ hcopies.left)
  case upper =>
    intro r hr i hi
    by_cases heq : r = f
    · rw [heq, hforked.upper i hi]
      exact h.upper _ (List.mem_cons_of_mem _ hp) i hi
    · have hr' := mem_spaces hr heq
      rw [Copies.same hcopies h.free (hused r hr')]
      exact h.upper r hr' i hi

/-- `map_user_region`, in the lower half. -/
theorem mapUserRegion_lower (hc : c.Lawful) (h : SpaceInv kernel top spaces kind s)
    (hr : r ∈ spaces) {virtStart size : Nat} {extra : Flags} (hsize : 0 < size)
    (hlow : virtStart + size ≤ 2 ^ 47) :
    Ends (mapUserRegion c r virtStart size extra) s
      (fun _ s' => ∃ kind', SpaceInv kernel top spaces kind' s') fun _ => True := by
  have hcover : ∀ i : Fin 512, i.val < 256 → known kernel r i :=
    fun i hi => .inr (.inr ⟨SpaceInv.ne_kernel h hr, hi⟩)
  refine (mapUserRegion_ends hc h.shape h.free (h.roots r (List.mem_cons_of_mem _ hr))
    (List.Subset.refl _) hcover hsize fun page _ hpage => ?_).mono ?_ fun _ _ => trivial
  · exact index_lower (by omega)
  · rintro _ s' ⟨kind', hregion⟩
    exact ⟨kind', SpaceInv.grows h hregion.toGrows fun i hi hlow => by omega⟩

/-- Every step keeps the invariant, with the same entries. -/
theorem spaceStep_inv (hc : c.Lawful) {m m' : Spaces} {e : SpaceEvent}
    (h : ∃ kind, SpaceInv kernel top m.spaces kind m.mem) (hstep : spaceStep c kernel m e = some m') :
    ∃ kind, SpaceInv kernel top m'.spaces kind m'.mem := by
  obtain ⟨kind, h⟩ := h
  cases e with
  | createProcessPml4 cr3 =>
    obtain ⟨hcr3, hstep⟩ := Option.ite_none_right_eq_some.mp hstep
    obtain ⟨⟨f, s'⟩, hresult, rfl⟩ := Option.map_eq_some_iff.mp hstep
    exact (createProcessPml4_ends h hcr3).returns hresult
  | fork cr3 process =>
    obtain ⟨⟨hcr3, hp⟩, hstep⟩ := Option.ite_none_right_eq_some.mp hstep
    obtain ⟨⟨child, s'⟩, hresult, rfl⟩ := Option.map_eq_some_iff.mp hstep
    obtain ⟨kind', hforked⟩ := (forked_of_inv h hcr3 hp).returns hresult
    exact ⟨kind', SpaceInv.fork h hp hforked⟩
  | newTask id =>
    obtain ⟨hid, hstep⟩ := Option.ite_none_right_eq_some.mp hstep
    obtain ⟨⟨u, s'⟩, hresult, rfl⟩ := Option.map_eq_some_iff.mp hstep
    exact (mapStackPages_ends hc h fun n hn => stackPages_slot hid hn).returns hresult
  | newUser process id =>
    obtain ⟨⟨hp, hid⟩, hstep⟩ := Option.ite_none_right_eq_some.mp hstep
    obtain ⟨⟨u, s'⟩, hresult, rfl⟩ := Option.map_eq_some_iff.mp hstep
    exact (mapUserTaskPages_ends hc hp h fun n hn => stackPages_slot hid hn).returns hresult
  | mapUserRegion process virtStart size extraFlags =>
    obtain ⟨⟨hp, hsize, hlow⟩, hstep⟩ := Option.ite_none_right_eq_some.mp hstep
    obtain ⟨⟨u, s'⟩, hresult, rfl⟩ := Option.map_eq_some_iff.mp hstep
    exact (mapUserRegion_lower hc h hp hsize hlow).returns hresult

/-! ## Boot -/

/-- The heap is mapped through its entry, which does not become accessible from ring 3. -/
theorem mapHeapPages_ends (hc : c.Lawful) {pool : List Frame} :
    ∀ (count page : Nat) {kind : Frame → Kind} {s : PhysMem}, Shape (known kernel) kind s.ram →
      Free kind s.frames → kind kernel = .root → s.frames ⊆ pool →
      (∀ n, n < count → index 3 (page + n) = heapSlot) →
      Ends (mapHeapPages c kernel count page) s
        (fun _ s' => ∃ kind', Grows (known kernel) pool kernel (fun i => i = heapSlot) kind s kind' s' ∧
          ((s'.ram kernel heapSlot).flags.isUser = true → (s.ram kernel heapSlot).flags.isUser = true))
        fun _ => True
  | 0, page, kind, s, hs, hfree, _, _, _ => ⟨kind, grows_refl hs hfree, id⟩
  | count + 1, page, kind, s, hs, hfree, hroot, hpool, hpages => by
    have hpage : index 3 page = heapSlot := hpages 0 (Nat.succ_pos count)
    have hin : Holds (known kernel) kind 3 page kernel := holds_root hroot (.inr (.inl ⟨rfl, hpage⟩))
    unfold mapHeapPages
    rw [ends_bind, ends_nextPage]
    refine ⟨fun _ => ?_, fun _ => trivial⟩
    rw [ends_bind, ends_allocateFrame]
    refine ⟨fun _ => ⟨kind, grows_refl hs hfree, id⟩, fun frame frames hframes => ?_⟩
    have htake : Grows (known kernel) pool kernel (fun i => i = heapSlot) kind s kind
      { s with frames := frames } := grows_take hs hfree hframes
    have hspare : Spare kind page frame frames := Free.take (hframes ▸ hfree)
    have hframe : frame ∈ pool := hpool (hframes ▸ List.mem_cons_self)
    have hframes' : frames ⊆ pool := fun f hf => hpool (hframes ▸ List.mem_cons_of_mem _ hf)
    dsimp only
    rw [ends_bind]
    refine ends_mapTo hc hs hin hspare (by decide) (fun _ => trivial)
      fun kind' used out writes hwrites _ heffect => ?_
    have hgrows := Grows.trans htake
      (grows_mapTo hs hroot hspare hpage hframe hframes' hwrites heffect)
    have huser : (out.ram kernel heapSlot).flags.isUser = true →
        (s.ram kernel heapSlot).flags.isUser = true := by
      intro hu
      have hrel := heffect.entry (by decide)
      rw [hpage] at hrel
      exact (hrel.user hu).resolve_right (by decide)
    rcases hresult : out.result with e | _ <;> rw [hresult] at hgrows
    · exact ⟨kind', hgrows, huser⟩
    · have hroot' : kind' kernel = .root := hgrows.ext.root hroot
      refine (mapHeapPages_ends hc count (page + 1) hgrows.shape hgrows.free hroot'
        (fun f hf => hpool (hgrows.left.subset hf)) fun n hn => ?_).mono ?_ fun _ _ => trivial
      · rw [Nat.add_assoc, Nat.add_comm 1 n]
        exact hpages (n + 1) (by omega)
      · rintro _ s'' ⟨kind'', hgrows', huser'⟩
        exact ⟨kind'', Grows.trans hgrows hgrows', fun hu => huser (huser' hu)⟩

theorem shape_boot {boot : PhysMem} (hboot : BootTables kernel boot) :
    Shape (known kernel) (Function.update (fun _ => .other) kernel .root) boot.ram := by
  intro t i
  by_cases ht : t = kernel
  · subst ht
    constructor
    case inner =>
      rintro level key (hin | ⟨-, -, -, hslot | ⟨-, hslot⟩ | ⟨hne, -⟩⟩)
      · rw [Function.update_self] at hin
        cases hin
      · rw [hslot]
        exact .inl hboot.stackRegion
      · rw [hslot]
        exact .inl hboot.heapRegion
      · exact absurd rfl hne
    case leaf =>
      intro key h
      rw [Function.update_self] at h
      cases h
  · refine fits_of_no_table fun level key hin => hin.ne_other ?_
    exact Function.update_of_ne ht _ _

theorem free_boot {boot : PhysMem} (hboot : BootTables kernel boot) :
    Free (Function.update (fun _ => .other) kernel .root) boot.frames := by
  refine ⟨hboot.nodup, fun f hf => Function.update_of_ne ?_ _ _⟩
  rintro rfl
  exact hboot.apart hf

/-- The anchor links the table of the stacks, with the flags of a kernel page, and nothing else of the region
is mapped. -/
theorem initKernelStackRegion_ends (hc : c.Lawful) (hs : Shape (known kernel) kind s.ram)
    (hfree : Free kind s.frames) (hroot : kind kernel = .root)
    (hunused : s.ram kernel stackSlot = .unused) :
    Ends (initKernelStackRegion c kernel) s
      (fun _ s' => (∃ kind', SpaceInv kernel (s'.ram kernel) [] kind' s') ∧
        (∀ i, i ≠ stackSlot → s'.ram kernel i = s.ram kernel i) ∧
        (s'.ram kernel stackSlot).flags.isUser = false ∧ AnchorOnly kernel s') fun _ => True := by
  have hpage : index 3 anchorPage = stackSlot := index_stack (n := 0) (by decide)
  have hdiv : anchorPage * 4096 / 4096 = anchorPage := Nat.mul_div_cancel _ (by decide)
  have hin : Holds (known kernel) kind 3 anchorPage kernel := holds_root hroot (.inl hpage)
  have hwalk : walk s.ram 3 kernel anchorPage = none := by
    rcases hw : walk s.ram 3 kernel anchorPage with _ | tr
    · rfl
    · have hused := walk_used hw
      rw [hpage] at hused
      exact absurd hunused hused
  have htr := translateAddr_eq_walk hc hs (anchorPage * 4096) (by rwa [hdiv])
  rw [hdiv, hwalk] at htr
  unfold initKernelStackRegion
  rw [ends_bind, ends_get, htr]
  show Ends (allocateFrame >>= _) _ _ _
  rw [ends_expect_allocateFrame]
  refine ⟨fun _ => trivial, fun frame frames hframes => ?_⟩
  have hspare : Spare kind anchorPage frame frames := Free.take (hframes ▸ hfree)
  rw [ends_bind]
  refine ends_mapTo hc hs hin hspare (by decide) (fun _ => trivial)
    fun kind' used out writes hwrites hmap heffect => ?_
  have hgrows : Grows (known kernel) s.frames kernel (fun i => i = stackSlot) kind
      { s with frames := frames } kind' _ :=
    grows_mapTo hs hroot hspare hpage (hframes ▸ List.mem_cons_self)
      (fun f hf => hframes ▸ List.mem_cons_of_mem _ hf) hwrites heffect
  have hrel := heffect.entry (by decide)
  rw [hpage, hunused] at hrel
  rw [ends_pure]
  refine ⟨⟨kind', ?_⟩, fun i hi => ?_, ?_, frame, fun hne n hn => ?_⟩
  · constructor
    case shape => exact hgrows.shape
    case free => exact hgrows.free
    case roots =>
      intro r hr
      rw [List.mem_singleton.mp hr]
      exact hgrows.ext.root hroot
    case apart => exact List.not_mem_nil
    case slot =>
      intro hne
      cases hrel with
      | failed _ _ _ hnil => exact absurd hnil hne
      | linked w hflags =>
        show (out.ram kernel stackSlot).flags.union kernelFlags = (out.ram kernel stackSlot).flags
        rw [hflags]
        cases w <;> decide
    case upper =>
      intro r hr i _
      rw [List.mem_singleton.mp hr]
  · exact hgrows.kept kernel i hroot fun h => hi h.2
  · cases hrel with
    | failed _ hunused' =>
      show (out.ram kernel stackSlot).flags.isUser = false
      rw [hunused']
      rfl
    | linked w hflags =>
      show (out.ram kernel stackSlot).flags.isUser = false
      rw [hflags]
      cases w <;> decide
  · have hbare : ∀ {n}, n < 2 ^ 27 → leafAt s.ram 3 kernel (anchorPage + n) = .unused := by
      intro n hn
      refine leafAt_unused ?_
      rw [index_stack hn]
      exact hunused
    have hanchor : leafAt s.ram 3 kernel (anchorPage + 0) = .unused := hbare (by decide)
    have hok := (hmap.ok_or_exhausted (Nat.le_refl 3) hs hin hspare.toFree hanchor).resolve_right hne
    have hin' : Holds (known kernel) kind 3 (anchorPage + n) kernel := holds_root hroot (.inl (index_stack hn))
    rw [hmap.leafAt_eq (Nat.le_refl 3) hs hin hspare.toFree _ hin', hbare hn]
    simp only [hok, and_true]
    exact if_congr (position_stack (n := 0) hn (by decide)) rfl rfl

/-- The state after boot: the invariant holds, what ring 3 could not access it still cannot, and of the region
of the stacks the anchor is mapped. -/
theorem initKernelSpace_ends (hc : c.Lawful) {boot : PhysMem} (hboot : BootTables kernel boot) :
    Ends (initKernelSpace c kernel) boot
      (fun _ s' => (∃ kind, SpaceInv kernel (s'.ram kernel) [] kind s') ∧
        (∀ i, (s'.ram kernel i).flags.isUser = true → (boot.ram kernel i).flags.isUser = true) ∧
        AnchorOnly kernel s')
      fun _ => True := by
  have hroot : Function.update (fun _ => Kind.other) kernel .root kernel = .root :=
    Function.update_self ..
  unfold initKernelSpace initHeap
  rw [ends_bind]
  refine (mapHeapPages_ends hc 25 _ (shape_boot hboot) (free_boot hboot) hroot
    (List.Subset.refl boot.frames) fun n hn => index_heap hn).mono ?_ fun _ _ => trivial
  rintro result s₁ ⟨kind₁, hgrows, huser⟩
  rw [ends_bind, ends_expectOk]
  refine ⟨fun _ => ?_, fun _ _ => trivial⟩
  have hroot₁ : kind₁ kernel = .root := hgrows.ext.root hroot
  have hkept : ∀ i, i ≠ heapSlot → s₁.ram kernel i = boot.ram kernel i :=
    fun i hi => hgrows.kept kernel i hroot fun h => hi h.2
  have hunused : s₁.ram kernel stackSlot = .unused :=
    (hkept stackSlot (by decide)).trans hboot.stackRegion
  refine (initKernelStackRegion_ends hc hgrows.shape hgrows.free hroot₁ hunused).mono ?_
    fun _ _ => trivial
  rintro _ s₂ ⟨hinv, hsame, hstack, hanchor⟩
  refine ⟨hinv, fun i hi => ?_, hanchor⟩
  by_cases hslot : i = stackSlot
  · rw [hslot, hstack] at hi
    cases hi
  · rw [hsame i hslot] at hi
    by_cases hheap : i = heapSlot
    · rw [hheap] at hi ⊢
      exact huser hi
    · rw [hkept i hheap] at hi
      exact hi

/-- The entry of the PML4 decides where a page is mapped. -/
theorem walk_congr_root {ram : Ram} {r r' : Frame} (h : ram r (index 3 page) = ram r' (index 3 page)) :
    walk ram 3 r page = walk ram 3 r' page := by
  unfold walk
  rw [h]

end SpaceLemmas

open SpaceLemmas

/-- In every run, every address of the kernel half is mapped to the same frame with the same flags and
rights in all address spaces. -/
theorem kernel_half_shared {c : Mapper} (hc : c.Lawful) {kernel : Frame} {boot mem : PhysMem}
    (hboot : BootTables kernel boot) (hinit : (initKernelSpace c kernel).result boot = some ((), mem))
    {events : List SpaceEvent} {m : Spaces}
    (hrun : run (spaceStep c kernel) ⟨mem, []⟩ events = some m) :
    ∀ p ∈ m.spaces, ∀ va, 2 ^ 64 - 2 ^ 47 ≤ va → va < 2 ^ 64 →
      walk m.mem.ram 3 p (va / 4096) = walk m.mem.ram 3 kernel (va / 4096) := by
  intro p hp va hva hva'
  obtain ⟨hinv, -⟩ := (initKernelSpace_ends hc hboot).returns hinit
  obtain ⟨kind, h⟩ := run_invariant
    (P := fun m : Spaces => ∃ kind, SpaceInv kernel (mem.ram kernel) m.spaces kind m.mem)
    (fun _ _ _ hm hstep => spaceStep_inv hc hm hstep) hinv hrun
  have hi := index_upper hva hva'
  refine walk_congr_root ?_
  rw [h.upper p (List.mem_cons_of_mem _ hp) _ hi, h.upper kernel List.mem_cons_self _ hi]

/-- Memory at boot with one table of the kernel and a hundred frames. -/
def sampleBoot : PhysMem where
  ram f i := if f = 1 ∧ i = 511 then ⟨kernelFlags, 2⟩ else .unused
  frames := (List.range' 16 100).map (BitVec.ofNat 40)
  writes := []
  mapped := []
  reads := []

theorem sampleBoot_tables : BootTables 1 sampleBoot where
  nodup := by decide +kernel
  apart := by decide +kernel
  heapRegion := rfl
  stackRegion := rfl

/-- A run from a state at boot. -/
def runFromBoot (c : Mapper) (kernel : Frame) (boot : PhysMem) (events : List SpaceEvent) :
    Option Spaces :=
  ((initKernelSpace c kernel).result boot).bind fun r => run (spaceStep c kernel) ⟨r.2, []⟩ events

theorem kernel_half_shared_sample : ∃ m, m.spaces ≠ [] ∧
    runFromBoot plainMapper 1 sampleBoot [.createProcessPml4 1,
      .mapUserRegion ⟨48, 0, 0⟩ 0x400000 4096 .writable, .newTask 1, .newUser ⟨48, 0, 0⟩ 2] = some m ∧
    ∀ p ∈ m.spaces, ∀ va, 2 ^ 64 - 2 ^ 47 ≤ va → va < 2 ^ 64 →
      walk m.mem.ram 3 p (va / 4096) = walk m.mem.ram 3 1 (va / 4096) := by
  have hspaces : (runFromBoot plainMapper 1 sampleBoot [.createProcessPml4 1,
      .mapUserRegion ⟨48, 0, 0⟩ 0x400000 4096 .writable, .newTask 1, .newUser ⟨48, 0, 0⟩ 2]).map
        (·.spaces) = some [48] := by decide +kernel
  obtain ⟨m, hm, hne⟩ := Option.map_eq_some_iff.mp hspaces
  obtain ⟨⟨u, mem⟩, hinit, hrun⟩ := Option.bind_eq_some_iff.mp hm
  refine ⟨m, by rw [hne]; nofun, hm, ?_⟩
  exact kernel_half_shared plainMapper_lawful sampleBoot_tables hinit hrun

end Turnix
