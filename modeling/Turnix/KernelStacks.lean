import Turnix.AddressSpaces
import Turnix.ContextIntegrity

/-!
# Kernel stacks

`Task::new` and `Task::new_user`, in runs that also create processes, fork them and map their pages. The
id of a task is the next value of a counter and decides where its stack is; below each stack there is a guard
page.

`RegionMaps` says which pages of the region of the stacks have a leaf. Mapping a page of a stack adds this page,
through whichever PML4, as all of them share the tables of the region (`mapTo_region_ends`); and an address space
that is made, forked or changed in its lower half leaves the region as it is. So the region consists of the anchor
and the stacks of the tasks that were created, from which `kernel_stacks_apart` follows.
-/

namespace Turnix

open Lib Lib.Paging PanicM

/-! ## Runs -/

/-- A task that was created, with the PML4 of its process. -/
structure StackOwner where
  id : Nat
  pml4 : Frame
deriving DecidableEq, Repr

/-- The address spaces, the tasks, last one first, and the PML4 in `KERNEL_PROC`. -/
structure TaskSpaces where
  space : Spaces
  tasks : List StackOwner
  kernelProc : Option Frame

/-- `TaskId::new`. -/
def TaskSpaces.nextId (m : TaskSpaces) : Nat := m.tasks.length + 1

/-- A call. `cr3` is the frame in `CR3` at the time. -/
inductive TaskEvent
  | createProcessPml4 (cr3 : Frame)
  | fork (cr3 : Frame) (process : Process)
  | mapUserRegion (process : Process) (virtStart size : Nat) (extraFlags : Flags)
  | newTask (cr3 : Frame)
  | newUser (process : Process)

/-- What a call does. -/
def taskStep (c : Mapper) (kernel : Frame) (m : TaskSpaces) : TaskEvent → Option TaskSpaces
  | .createProcessPml4 cr3 =>
    (spaceStep c kernel m.space (.createProcessPml4 cr3)).map fun space => { m with space := space }
  | .fork cr3 process =>
    (spaceStep c kernel m.space (.fork cr3 process)).map fun space => { m with space := space }
  | .mapUserRegion process virtStart size extraFlags =>
    (spaceStep c kernel m.space (.mapUserRegion process virtStart size extraFlags)).map
      fun space => { m with space := space }
  | .newTask cr3 =>
    if (kernel :: m.space.spaces).contains cr3 then
      (spaceStep c kernel m.space (.newTask m.nextId)).map fun space =>
        -- `kernel_process` reads `CR3` at its first call
        let pml4 := m.kernelProc.getD cr3
        ⟨space, ⟨m.nextId, pml4⟩ :: m.tasks, some pml4⟩
    else none
  | .newUser process =>
    (spaceStep c kernel m.space (.newUser process m.nextId)).map fun space =>
      { m with space := space, tasks := ⟨m.nextId, process.pml4⟩ :: m.tasks }

/-! ## The invariant -/

/-- The pages of the region that have a leaf, by their distance from the anchor. All leaves have the flags of
kernel pages. -/
def RegionMaps (kernel : Frame) (ram : Ram) (mapped : Nat → Prop) : Prop :=
  ∀ n < 2 ^ 27, (mapped n → ∃ frame, leafAt ram 3 kernel (anchorPage + n) = ⟨kernelFlags, frame⟩) ∧
    (¬ mapped n → leafAt ram 3 kernel (anchorPage + n) = .unused)

/-- The region is as said as long as the allocator has a frame left. -/
structure StackInv (kernel : Frame) (top : Table) (spaces : List Frame) (mapped : Nat → Prop)
    (kind : Frame → Kind) (s : PhysMem) : Prop extends SpaceInv kernel top spaces kind s where
  region : s.frames ≠ [] → RegionMaps kernel s.ram mapped

/-- The anchor and the pages of the stacks. -/
def stackPages (tasks : List StackOwner) (n : Nat) : Prop :=
  n = 0 ∨ ∃ t ∈ tasks, t.id * 10 + 1 ≤ n ∧ n < t.id * 10 + 1 + 8

structure TaskInv (kernel : Frame) (top : Table) (m : TaskSpaces) : Prop where
  space : ∃ kind, StackInv kernel top m.space.spaces (stackPages m.tasks) kind m.space.mem
  ids : m.tasks.map (·.id) = (List.range' 1 m.tasks.length).reverse
  fits : ∀ t ∈ m.tasks, (t.id + 1) * 40960 ≤ 2 ^ 39
  owners : ∀ t ∈ m.tasks, t.pml4 ∈ kernel :: m.space.spaces
  kernelProc : ∀ p, m.kernelProc = some p → p ∈ kernel :: m.space.spaces

open RegionLemmas CloneLemmas SpaceLemmas MachineLemmas

namespace StackLemmas

variable {c : Mapper} {kernel r frame : Frame} {top : Table} {spaces spaces' : List Frame}
  {mapped mapped' : Nat → Prop} {kind kind' : Frame → Kind} {s s' : PhysMem} {n page : Nat}

/-! ## The region -/

theorem kernelFlags_isPresent : kernelFlags.isPresent = true := by decide

theorem SpaceInv.holds_stack (h : SpaceInv kernel top spaces kind s) (hr : r ∈ kernel :: spaces)
    (hn : n < 2 ^ 27) : Holds (known kernel) kind 3 (anchorPage + n) r :=
  holds_root (h.roots r hr) (.inl (index_stack hn))

/-- All PML4s have the same entry for the region. -/
theorem SpaceInv.leafAt_stack (h : SpaceInv kernel top spaces kind s) (hr : r ∈ kernel :: spaces)
    (hn : n < 2 ^ 27) : leafAt s.ram 3 r (anchorPage + n) = leafAt s.ram 3 kernel (anchorPage + n) := by
  have hslot : 256 ≤ stackSlot.val := by decide
  unfold leafAt
  rw [index_stack hn, h.upper r hr _ hslot, h.upper kernel List.mem_cons_self _ hslot]

theorem StackInv.congr (h : StackInv kernel top spaces mapped kind s)
    (heq : ∀ n, mapped' n ↔ mapped n) : StackInv kernel top spaces mapped' kind s := by
  obtain rfl : mapped' = mapped := funext fun n => propext (heq n)
  exact h

/-- The frame rule: code that keeps the ways to the pages of the region. -/
theorem StackInv.keep (h : StackInv kernel top spaces mapped kind s)
    (hinv : SpaceInv kernel top spaces' kind' s') (hleft : s'.frames <:+ s.frames)
    (hways : ∀ n < 2 ^ 27,
      leafAt s'.ram 3 kernel (anchorPage + n) = leafAt s.ram 3 kernel (anchorPage + n)) :
    StackInv kernel top spaces' mapped kind' s' := by
  refine ⟨hinv, fun hne n hn => ?_⟩
  rw [hways n hn]
  refine h.region (fun hnil => hne ?_) n hn
  exact List.suffix_nil.mp (hnil ▸ hleft)

/-- Code that changes no frame in use keeps them. -/
theorem SpaceInv.leafAt_kept (h : SpaceInv kernel top spaces kind s)
    (hsame : ∀ f, f ∉ s.frames → s'.ram f = s.ram f) (hn : n < 2 ^ 27) :
    leafAt s'.ram 3 kernel (anchorPage + n) = leafAt s.ram 3 kernel (anchorPage + n) := by
  refine h.shape.leafAt_congr (Nat.le_refl 3) (SpaceInv.holds_stack h List.mem_cons_self hn)
    fun l f _ hf => .inl (congrFun (hsame f ?_) _)
  exact notMem_of_used h.free hf.ne_other

theorem StackInv.take {frames : List Frame} (h : StackInv kernel top spaces mapped kind s)
    (hframes : s.frames = frame :: frames) :
    StackInv kernel top spaces mapped kind { s with frames := frames } := by
  refine StackInv.keep h (SpaceInv.take h.toSpaceInv hframes) ?_ fun _ _ => rfl
  rw [hframes]
  exact List.suffix_cons frame frames

/-! ## Stacks -/

/-- A page of the region is mapped to a frame, through any PML4. It has no leaf before, or that leaf
already. -/
theorem mapTo_region_ends (hc : c.Lawful) (h : StackInv kernel top spaces mapped kind s)
    (hr : r ∈ kernel :: spaces) (hn : n < 2 ^ 27)
    (hspare : Spare kind (anchorPage + n) frame s.frames)
    (hslot : (top stackSlot).flags.union kernelFlags = (top stackSlot).flags)
    (hleaf : s.frames ≠ [] → leafAt s.ram 3 kernel (anchorPage + n) = .unused ∨
      leafAt s.ram 3 kernel (anchorPage + n) = ⟨kernelFlags, frame⟩) :
    Ends (mapTo c r (anchorPage + n) frame kernelFlags) s
      (fun _ s' => ∃ kind', StackInv kernel top spaces (fun m => mapped m ∨ m = n) kind' s' ∧
        Spare kind' (anchorPage + n) frame s'.frames ∧
        (s'.frames ≠ [] → leafAt s'.ram 3 kernel (anchorPage + n) = ⟨kernelFlags, frame⟩))
      fun _ => True := by
  have hin := SpaceInv.holds_stack h.toSpaceInv hr hn
  refine ends_mapTo hc h.shape hin hspare (by decide) (fun _ => trivial)
    fun kind' used out writes hwrites hmap heffect => ?_
  have hinv := SpaceInv.mapTo_stack h.toSpaceInv hr hspare hslot (index_stack hn) hwrites heffect
  have hleft : out.frames ≠ [] → s.frames ≠ [] := by
    intro hne hnil
    rw [heffect.frames_eq] at hnil
    exact hne (List.append_eq_nil_iff.mp hnil).2
  have hways : out.frames ≠ [] → ∀ m < 2 ^ 27, leafAt out.ram 3 kernel (anchorPage + m) =
      if m = n then ⟨kernelFlags, frame⟩ else leafAt s.ram 3 kernel (anchorPage + m) := by
    intro hne m hm
    have hafter : leafAt out.ram 3 r (anchorPage + m) = leafAt out.ram 3 kernel (anchorPage + m) :=
      SpaceInv.leafAt_stack hinv hr hm
    have hbefore := SpaceInv.leafAt_stack h.toSpaceInv hr hm
    rw [← hafter, hmap.leafAt_eq (Nat.le_refl 3) h.shape hin hspare.toFree _
      (SpaceInv.holds_stack h.toSpaceInv hr hm), hbefore]
    by_cases heq : m = n
    · subst heq
      rw [if_pos rfl]
      by_cases hok : out.result = .ok ()
      · rw [if_pos ⟨rfl, hok⟩]
      · rw [if_neg fun h => hok h.2]
        refine (hleaf (hleft hne)).resolve_left fun hunused => ?_
        rcases hmap.ok_or_exhausted (Nat.le_refl 3) h.shape hin hspare.toFree (hbefore.trans hunused) with
          hok' | hnil
        · exact hok hok'
        · exact hne hnil
    · rw [if_neg fun h => heq ((position_stack hm hn).mp h.1), if_neg heq]
  refine ⟨kind', ⟨hinv, fun hne m hm => ?_⟩, heffect.spare hspare, fun hne => ?_⟩
  · rw [hways hne m hm]
    by_cases heq : m = n
    · rw [if_pos heq]
      exact ⟨fun _ => ⟨frame, rfl⟩, fun hnot => absurd (.inr heq) hnot⟩
    · rw [if_neg heq]
      have hold := h.region (hleft hne) m hm
      exact ⟨fun hm' => hold.1 (hm'.resolve_right heq), fun hnot => hold.2 fun hm' => hnot (.inl hm')⟩
  · rw [hways hne n hn, if_pos rfl]

/-- A frame is taken for a page that has no leaf. -/
theorem StackInv.taken {frames : List Frame} (h : StackInv kernel top spaces mapped kind s)
    (hframes : s.frames = frame :: frames) (hn : n < 2 ^ 27) (hfree : ¬ mapped n) :
    (top stackSlot).flags.union kernelFlags = (top stackSlot).flags ∧
      Spare kind (anchorPage + n) frame frames ∧ leafAt s.ram 3 kernel (anchorPage + n) = .unused := by
  have hne : s.frames ≠ [] := by
    rw [hframes]
    exact List.cons_ne_nil _ _
  exact ⟨h.slot hne, Free.take (hframes ▸ h.free), (h.region hne n hn).2 hfree⟩

/-- The pages of a stack up to one more. -/
theorem pages_succ (n k m : Nat) :
    mapped m ∨ n ≤ m ∧ m < n + (k + 1) ↔ (mapped m ∨ n ≤ m ∧ m < n + k) ∨ m = n + k := by
  rw [or_assoc]
  exact or_congr_right (by omega)

/-- The next page of a stack is not mapped yet. -/
theorem next_free {n k : Nat} (hfree : ¬ mapped (n + k)) : ¬ (mapped (n + k) ∨ n ≤ n + k ∧ n + k < n + k) :=
  fun h => h.elim hfree fun hlt => Nat.lt_irrefl _ hlt.2

/-- `Task::new`. -/
theorem mapStackPages_region (hc : c.Lawful) (h : StackInv kernel top spaces mapped kind s) {count n : Nat}
    (hpages : ∀ m, n ≤ m → m < n + count → m < 2 ^ 27 ∧ ¬ mapped m) :
    Ends (mapStackPages c kernel count (anchorPage + n)) s
      (fun _ s' => ∃ kind',
        StackInv kernel top spaces (fun m => mapped m ∨ n ≤ m ∧ m < n + count) kind' s')
      fun _ => True := by
  refine @ends_mapStackPages c kernel count (anchorPage + n)
    (fun k s => ∃ kind, StackInv kernel top spaces (fun m => mapped m ∨ n ≤ m ∧ m < n + k) kind s)
    ?_ count 0 s (Nat.zero_add count) ⟨kind, StackInv.congr h fun m => or_iff_left (by omega)⟩
  rintro k s frame frames hk ⟨kind, h⟩ hframes
  obtain ⟨hn, hfree⟩ := hpages (n + k) (Nat.le_add_right n k) (by omega)
  obtain ⟨hslot, hspare, hunused⟩ := StackInv.taken h hframes hn (next_free hfree)
  rw [Nat.add_assoc]
  refine (mapTo_region_ends hc (StackInv.take h hframes) List.mem_cons_self hn hspare hslot
    fun _ => .inl hunused).mono ?_ fun _ _ => trivial
  rintro _ s' ⟨kind', h', -⟩
  exact ⟨kind', StackInv.congr h' (pages_succ n k)⟩

/-- `Task::new_user`. -/
theorem mapUserTaskPages_region (hc : c.Lawful) (hr : r ∈ kernel :: spaces)
    (h : StackInv kernel top spaces mapped kind s) {count n : Nat}
    (hpages : ∀ m, n ≤ m → m < n + count → m < 2 ^ 27 ∧ ¬ mapped m) :
    Ends (mapUserTaskPages c kernel r count (anchorPage + n)) s
      (fun _ s' => ∃ kind',
        StackInv kernel top spaces (fun m => mapped m ∨ n ≤ m ∧ m < n + count) kind' s')
      fun _ => True := by
  refine @ends_mapUserTaskPages c kernel r count (anchorPage + n)
    (fun k s => ∃ kind, StackInv kernel top spaces (fun m => mapped m ∨ n ≤ m ∧ m < n + k) kind s)
    ?_ count 0 s (Nat.zero_add count) ⟨kind, StackInv.congr h fun m => or_iff_left (by omega)⟩
  rintro k s frame frames hk ⟨kind, h⟩ hframes
  obtain ⟨hn, hfree⟩ := hpages (n + k) (Nat.le_add_right n k) (by omega)
  obtain ⟨hslot, hspare, hunused⟩ := StackInv.taken h hframes hn (next_free hfree)
  rw [Nat.add_assoc]
  refine (mapTo_region_ends hc (StackInv.take h hframes) List.mem_cons_self hn hspare hslot
    fun _ => .inl hunused).mono ?_ fun _ _ => trivial
  rintro _ s₁ ⟨kind₁, h₁, hspare₁, hleaf⟩
  -- the second mapper finds the leaf of the first
  refine (mapTo_region_ends hc h₁ hr hn hspare₁ hslot fun hne => .inr (hleaf hne)).mono ?_
    fun _ _ => trivial
  rintro _ s₂ ⟨kind₂, h₂, -⟩
  refine ⟨kind₂, StackInv.congr h₂ fun m => ?_⟩
  rw [or_assoc, or_self]
  exact pages_succ n k m

/-! ## The other calls -/

/-- A page of the lower half is mapped. -/
theorem mapUserPages_region (hc : c.Lawful) {flags : Flags} (hp : flags.isPresent = true)
    (hr : r ∈ spaces) :
    ∀ (count page : Nat) {kind : Frame → Kind} {s : PhysMem},
      StackInv kernel top spaces mapped kind s → (∀ m < count, (index 3 (page + m)).val < 256) →
      Ends (mapUserPages c r flags count page) s
        (fun _ s' => ∃ kind', StackInv kernel top spaces mapped kind' s') fun _ => True
  | 0, page, kind, s, h, _ => ⟨kind, h⟩
  | count + 1, page, kind, s, h, hpages => by
    have hpage : (index 3 page).val < 256 := hpages 0 (Nat.succ_pos count)
    have hmem : r ∈ kernel :: spaces := List.mem_cons_of_mem _ hr
    have hin : Holds (known kernel) kind 3 page r :=
      holds_root (h.roots r hmem) (.inr (.inr ⟨SpaceInv.ne_kernel h.toSpaceInv hr, hpage⟩))
    have hrest : ∀ m < count, (index 3 (page + 1 + m)).val < 256 := by
      intro m hm
      rw [Nat.add_assoc, Nat.add_comm 1 m]
      exact hpages (m + 1) (by omega)
    unfold mapUserPages
    rw [ends_bind, ends_nextPage]
    refine ⟨fun _ => ?_, fun _ => trivial⟩
    rw [ends_bind, ends_get]
    rcases c.translateAddr s.ram r (page * 4096) with _ | a
    · show Ends (allocateFrame >>= _) _ _ _
      rw [ends_expect_allocateFrame]
      refine ⟨fun _ => trivial, fun frame frames hframes => ?_⟩
      have hspare : Spare kind page frame frames := Free.take (hframes ▸ h.free)
      have h₁ := StackInv.take h hframes
      rw [ends_bind]
      refine ends_mapTo hc h.shape hin hspare hp (fun _ => trivial)
        fun kind' used out writes hwrites hmap heffect => ?_
      rw [ends_bind, ends_expectOk]
      refine ⟨fun _ => ?_, fun _ _ => trivial⟩
      have hgrows : Grows (known kernel) (frame :: frames) r (fun i => i.val < 256) kind
          { s with frames := frames } kind' _ :=
        grows_mapTo h.shape (h.roots r hmem) hspare hpage List.mem_cons_self (List.subset_cons_self _ _)
          hwrites heffect
      refine mapUserPages_region hc hp hr count (page + 1) (StackInv.keep h₁
        (SpaceInv.grows h₁.toSpaceInv hgrows fun i hi hlow => by omega) hgrows.left fun n hn => ?_) hrest
      refine hmap.leafAt_other (Nat.le_refl 3) h.shape hin hspare.toFree
        (SpaceInv.holds_stack h.toSpaceInv List.mem_cons_self hn) fun heq => ?_
      rw [← heq, index_stack hn] at hpage
      exact absurd hpage (by decide)
    · exact mapUserPages_region hc hp hr count (page + 1) h hrest

theorem mapUserRegion_region (hc : c.Lawful) (h : StackInv kernel top spaces mapped kind s)
    (hr : r ∈ spaces) {virtStart size : Nat} {extra : Flags} (hsize : 0 < size)
    (hlow : virtStart + size ≤ 2 ^ 47) :
    Ends (mapUserRegion c r virtStart size extra) s
      (fun _ s' => s'.frames ≠ [] → RegionMaps kernel s'.ram mapped) fun _ => True := by
  have hfirst : (index 3 (virtStart / 4096)).val < 256 := index_lower (by omega)
  unfold mapUserRegion addAddr
  rw [ends_bind, ends_virtAddr]
  refine ⟨fun _ => ?_, fun _ => trivial⟩
  rw [ends_bind, ends_subAddr]
  refine ⟨fun _ => ?_, fun _ => trivial⟩
  rw [ends_bind]
  refine (mapUserPages_region hc (userFlags_isPresent extra) hr _ _ h fun m hm => ?_).mono ?_
    fun _ _ => trivial
  · exact index_lower (by omega)
  rintro _ s' ⟨kind', h'⟩
  rw [ends_bind, ends_get, ends_setEntry]
  intro hne n hn
  have hin := SpaceInv.holds_stack h'.toSpaceInv List.mem_cons_self hn
  -- the last write is to an entry of the lower half of a PML4
  have hways : leafAt (s'.ram.set r (index 3 (virtStart / 4096)) { s'.ram r (index 3 (virtStart / 4096)) with
      flags := (s'.ram r (index 3 (virtStart / 4096))).flags.union .user }) 3 kernel (anchorPage + n) =
        leafAt s'.ram 3 kernel (anchorPage + n) := by
    refine h'.shape.leafAt_congr (Nat.le_refl 3) hin fun l f _ hf => .inl (Ram.set_of_ne ?_ _)
    rintro ⟨rfl, hindex⟩
    have hroot := h'.roots f (List.mem_cons_of_mem _ hr)
    rcases hf with hf | ⟨rfl, -, -, -⟩
    · rw [hroot] at hf
      cases hf
    · rw [index_stack hn] at hindex
      rw [← hindex] at hfirst
      exact absurd hfirst (by decide)
  show (mapped n → ∃ frame, leafAt (s'.ram.set _ _ _) 3 kernel (anchorPage + n) = ⟨kernelFlags, frame⟩) ∧
    (¬ mapped n → leafAt (s'.ram.set _ _ _) 3 kernel (anchorPage + n) = .unused)
  rw [hways]
  exact h'.region hne n hn

/-! ## Steps -/

variable {m m' : TaskSpaces} {space' : Spaces} {t t' : StackOwner} {pml4 : Frame} {proc : Option Frame}

theorem TaskInv.id_pos (h : TaskInv kernel top m) (ht : t ∈ m.tasks) : 1 ≤ t.id ∧ t.id < m.nextId := by
  have hid : t.id ∈ m.tasks.map (·.id) := List.mem_map_of_mem ht
  rw [h.ids, List.mem_reverse, List.mem_range'_1] at hid
  unfold TaskSpaces.nextId
  omega

/-- The stack of the next task has no page in common with those before. -/
theorem TaskInv.next_free (h : TaskInv kernel top m) (hid : (m.nextId + 1) * 40960 ≤ 2 ^ 39) (n : Nat)
    (hn : m.nextId * 10 + 1 ≤ n) (hn' : n < m.nextId * 10 + 1 + 8) : n < 2 ^ 27 ∧ ¬ stackPages m.tasks n := by
  refine ⟨by omega, ?_⟩
  rintro (rfl | ⟨t, ht, hlow, hhigh⟩)
  · omega
  · have := (TaskInv.id_pos h ht).2
    omega

/-- A task gets the next id and the pages of its stack. -/
theorem TaskInv.add {mem : PhysMem} (h : TaskInv kernel top m) (hid : (m.nextId + 1) * 40960 ≤ 2 ^ 39)
    (hpml4 : pml4 ∈ kernel :: m.space.spaces)
    (hproc : ∀ p, proc = some p → p ∈ kernel :: m.space.spaces)
    (hinv : ∃ kind, StackInv kernel top m.space.spaces
      (fun n => stackPages m.tasks n ∨ m.nextId * 10 + 1 ≤ n ∧ n < m.nextId * 10 + 1 + 8) kind mem) :
    TaskInv kernel top ⟨{ m.space with mem := mem }, ⟨m.nextId, pml4⟩ :: m.tasks, proc⟩ := by
  constructor
  case space =>
    obtain ⟨kind, hkind⟩ := hinv
    refine ⟨kind, StackInv.congr hkind fun n => ?_⟩
    unfold stackPages
    rw [List.exists_mem_cons_iff, or_assoc]
    exact or_congr_right or_comm
  case ids =>
    show m.nextId :: m.tasks.map (·.id) = (List.range' 1 (m.tasks.length + 1)).reverse
    rw [h.ids, List.range'_1_concat, List.reverse_append, Nat.add_comm 1]
    rfl
  case fits => exact List.forall_mem_cons.mpr ⟨hid, h.fits⟩
  case owners => exact List.forall_mem_cons.mpr ⟨hpml4, h.owners⟩
  case kernelProc => exact hproc

/-- A call that creates no task. -/
theorem TaskInv.others (h : TaskInv kernel top m) (hsub : m.space.spaces ⊆ space'.spaces)
    (hinv : ∃ kind, StackInv kernel top space'.spaces (stackPages m.tasks) kind space'.mem) :
    TaskInv kernel top { m with space := space' } := by
  have hmem : ∀ p ∈ kernel :: m.space.spaces, p ∈ kernel :: space'.spaces := List.cons_subset_cons kernel hsub
  constructor
  case space => exact hinv
  case ids => exact h.ids
  case fits => exact h.fits
  case owners => exact fun t ht => hmem _ (h.owners t ht)
  case kernelProc => exact fun p hp => hmem p (h.kernelProc p hp)

theorem taskStep_inv (hc : c.Lawful) {e : TaskEvent} (h : TaskInv kernel top m)
    (hstep : taskStep c kernel m e = some m') : TaskInv kernel top m' := by
  obtain ⟨kind, hinv⟩ := h.space
  cases e with
  | createProcessPml4 cr3 =>
    obtain ⟨space', hspace, rfl⟩ := Option.map_eq_some_iff.mp hstep
    obtain ⟨hcr3, hcall⟩ := Option.ite_none_right_eq_some.mp hspace
    obtain ⟨⟨f, s'⟩, hresult, rfl⟩ := Option.map_eq_some_iff.mp hcall
    obtain ⟨kind', hinv'⟩ := (createProcessPml4_ends hinv.toSpaceInv hcr3).returns hresult
    have hkept : Ends (createProcessPml4 cr3) m.space.mem (fun _ s' => s'.frames <:+ m.space.mem.frames ∧
        ∀ f, f ∉ m.space.mem.frames → s'.ram f = m.space.mem.ram f) fun _ => True := by
      rw [ends_createProcessPml4]
      refine ⟨fun _ => trivial, fun f frames hframes => ?_⟩
      rw [hframes]
      refine ⟨List.suffix_cons f frames, fun g hg => Function.update_of_ne ?_ _ _⟩
      exact fun heq => hg (heq ▸ List.mem_cons_self)
    obtain ⟨hleft, hsame⟩ := hkept.returns hresult
    exact TaskInv.others h (List.subset_cons_self _ _)
      ⟨kind', StackInv.keep hinv hinv' hleft fun n hn => SpaceInv.leafAt_kept hinv.toSpaceInv hsame hn⟩
  | fork cr3 process =>
    obtain ⟨space', hspace, rfl⟩ := Option.map_eq_some_iff.mp hstep
    obtain ⟨⟨hcr3, hp⟩, hcall⟩ := Option.ite_none_right_eq_some.mp hspace
    obtain ⟨⟨child, s'⟩, hresult, rfl⟩ := Option.map_eq_some_iff.mp hcall
    obtain ⟨kind', hforked⟩ := (forked_of_inv hinv.toSpaceInv hcr3 hp).returns hresult
    exact TaskInv.others h (List.subset_cons_self _ _) ⟨kind', StackInv.keep hinv
      (SpaceInv.fork hinv.toSpaceInv hp hforked) hforked.copies.left
      fun n hn => SpaceInv.leafAt_kept hinv.toSpaceInv hforked.copies.kept hn⟩
  | mapUserRegion process virtStart size extraFlags =>
    obtain ⟨space', hspace, rfl⟩ := Option.map_eq_some_iff.mp hstep
    obtain ⟨⟨hp, hsize, hlow⟩, hcall⟩ := Option.ite_none_right_eq_some.mp hspace
    obtain ⟨⟨u, s'⟩, hresult, rfl⟩ := Option.map_eq_some_iff.mp hcall
    obtain ⟨kind', hinv'⟩ := (mapUserRegion_lower hc hinv.toSpaceInv hp hsize hlow).returns hresult
    have hregion := (mapUserRegion_region hc hinv hp hsize hlow).returns hresult
    exact TaskInv.others h (List.Subset.refl _) ⟨kind', hinv', hregion⟩
  | newTask cr3 =>
    obtain ⟨hcr3, hstep⟩ := Option.ite_none_right_eq_some.mp hstep
    obtain ⟨space', hspace, rfl⟩ := Option.map_eq_some_iff.mp hstep
    obtain ⟨hid, hcall⟩ := Option.ite_none_right_eq_some.mp hspace
    obtain ⟨⟨u, s'⟩, hresult, rfl⟩ := Option.map_eq_some_iff.mp hcall
    have hpml4 : m.kernelProc.getD cr3 ∈ kernel :: m.space.spaces := by
      rcases hproc : m.kernelProc with _ | p
      · exact List.contains_iff_mem.mp hcr3
      · exact h.kernelProc p hproc
    refine TaskInv.add h hid hpml4 (fun p hp => Option.some.inj hp ▸ hpml4) ?_
    exact (mapStackPages_region hc hinv (TaskInv.next_free h hid)).returns hresult
  | newUser process =>
    obtain ⟨space', hspace, rfl⟩ := Option.map_eq_some_iff.mp hstep
    obtain ⟨⟨hp, hid⟩, hcall⟩ := Option.ite_none_right_eq_some.mp hspace
    obtain ⟨⟨u, s'⟩, hresult, rfl⟩ := Option.map_eq_some_iff.mp hcall
    refine TaskInv.add h hid hp h.kernelProc ?_
    exact (mapUserTaskPages_region hc hp hinv (TaskInv.next_free h hid)).returns hresult

/-- After boot the region has the anchor only. -/
theorem taskInv_init {mem : PhysMem} (hinv : ∃ kind, SpaceInv kernel top [] kind mem)
    (hanchor : AnchorOnly kernel mem) : TaskInv kernel top ⟨⟨mem, []⟩, [], none⟩ := by
  obtain ⟨kind, hkind⟩ := hinv
  obtain ⟨frame, hways⟩ := hanchor
  have hpages : ∀ n, stackPages [] n ↔ n = 0 := fun n =>
    or_iff_left fun ⟨t, ht, _⟩ => absurd ht List.not_mem_nil
  constructor
  case space =>
    refine ⟨kind, hkind, fun hne n hn => ?_⟩
    rw [hways hne n hn, hpages n]
    refine ⟨fun h0 => ⟨frame, if_pos h0⟩, fun h0 => if_neg h0⟩
  case ids => rfl
  case fits => exact fun t ht => absurd ht List.not_mem_nil
  case owners => exact fun t ht => absurd ht List.not_mem_nil
  case kernelProc => exact fun p hp => absurd hp.symm (Option.some_ne_none p)

/-! ## Addresses -/

theorem page_of_stack {id : Nat} {va : Nat} (hlow : stackBottom id ≤ va) (hhigh : va < stackTop id) :
    ∃ n, va / 4096 = anchorPage + n ∧ id * 10 + 1 ≤ n ∧ n < id * 10 + 1 + 8 := by
  unfold stackTop at hhigh
  unfold stackBottom kernelStackRegionBase stackStride at hlow hhigh
  refine ⟨va / 4096 - anchorPage, ?_⟩
  unfold anchorPage
  omega

theorem page_of_guard {id : Nat} {va : Nat} (hlow : stackBottom id ≤ va + 4096)
    (hhigh : va < stackBottom id) : va / 4096 = anchorPage + id * 10 := by
  unfold stackBottom kernelStackRegionBase stackStride at hlow hhigh
  unfold anchorPage
  omega

theorem guard_not_mapped (h : TaskInv kernel top m) (ht : t ∈ m.tasks) : ¬ stackPages m.tasks (t.id * 10) := by
  have hpos := (TaskInv.id_pos h ht).1
  rintro (h0 | ⟨t', ht', hlow, hhigh⟩) <;> omega

theorem StackInv.view_stack (h : StackInv kernel top spaces mapped kind s) (hr : r ∈ kernel :: spaces)
    (hn : n < 2 ^ 27) :
    view s.ram 3 r (anchorPage + n) = (leafAt s.ram 3 kernel (anchorPage + n)).target := by
  rw [h.shape.view_eq (Nat.le_refl 3) (SpaceInv.holds_stack h.toSpaceInv hr hn),
    SpaceInv.leafAt_stack h.toSpaceInv hr hn]

/-- A page of a stack is mapped to one frame in all address spaces. -/
theorem StackInv.view_mapped (h : StackInv kernel top spaces mapped kind s) (hne : s.frames ≠ [])
    (hn : n < 2 ^ 27) (hmapped : mapped n) : ∃ frame, kind frame = .data (position 0 (anchorPage + n)) ∧
      ∀ r ∈ kernel :: spaces, view s.ram 3 r (anchorPage + n) = some (frame, kernelFlags) := by
  obtain ⟨frame, hleaf⟩ := (h.region hne n hn).1 hmapped
  refine ⟨frame, ?_, fun r hr => ?_⟩
  · have hdata := h.shape.leafAt_data (Nat.le_refl 3)
      (SpaceInv.holds_stack h.toSpaceInv List.mem_cons_self hn)
    rw [hleaf] at hdata
    exact hdata.resolve_left (ne_unused_of_present kernelFlags_isPresent)
  · rw [StackInv.view_stack h hr hn, hleaf]
    exact if_pos kernelFlags_isPresent

end StackLemmas

open StackLemmas

/-! ## Every run -/

/-- The kernel stacks of the tasks that were created. -/
structure StacksApart (kernel : Frame) (m : TaskSpaces) : Prop where
  ids : m.tasks.map (·.id) = (List.range' 1 m.tasks.length).reverse
  disjoint : ∀ t ∈ m.tasks, ∀ t' ∈ m.tasks, t.id ≠ t'.id →
    stackTop t.id ≤ stackBottom t'.id ∨ stackTop t'.id ≤ stackBottom t.id
  /-- in the address space of the kernel and in that of the process, to one frame -/
  mapped : ∀ t ∈ m.tasks, ∀ va, stackBottom t.id ≤ va → va < stackTop t.id → ∃ frame,
    view m.space.mem.ram 3 kernel (va / 4096) = some (frame, kernelFlags) ∧
      view m.space.mem.ram 3 t.pml4 (va / 4096) = some (frame, kernelFlags)
  /-- no two pages of stacks have the same frame -/
  frames : ∀ t ∈ m.tasks, ∀ t' ∈ m.tasks, ∀ va va' frame flags flags',
    stackBottom t.id ≤ va → va < stackTop t.id → stackBottom t'.id ≤ va' → va' < stackTop t'.id →
    view m.space.mem.ram 3 kernel (va / 4096) = some (frame, flags) →
    view m.space.mem.ram 3 kernel (va' / 4096) = some (frame, flags') → va / 4096 = va' / 4096
  /-- the guard page is mapped in no address space -/
  guard : ∀ t ∈ m.tasks, ∀ va, stackBottom t.id ≤ va + 4096 → va < stackBottom t.id →
    ∀ r ∈ kernel :: m.space.spaces, view m.space.mem.ram 3 r (va / 4096) = none
  /-- it is neither the anchor nor part of a stack -/
  guard_apart : ∀ t ∈ m.tasks, ∀ va, stackBottom t.id ≤ va + 4096 → va < stackBottom t.id →
    va / 4096 ≠ anchorPage ∧ ∀ t' ∈ m.tasks, ¬ (stackBottom t'.id ≤ va ∧ va < stackTop t'.id)
  /-- the kernel image starts above all stacks -/
  image : ∀ t ∈ m.tasks, stackTop t.id ≤ 0xFFFFFFFF80000000
  /-- the first frame on a stack: twenty words, and nothing outside the stack is written -/
  first_frame : ∀ t ∈ m.tasks, ∀ ctx words, ∃ sp words',
    pushWords (fun _ => true) (newFrame ctx) (stackTop t.id) words = some (sp, words') ∧
      sp + 8 * 20 = stackTop t.id ∧ (∀ i < 20, onStack t.id (sp + 8 * i) = true) ∧
      ∀ a, onStack t.id a = false → words' a = words a

/-- In every run from boot with frames left, the kernel stacks are apart from each other, from their guard
pages and from the kernel image. -/
theorem kernel_stacks_apart {c : Mapper} (hc : c.Lawful) {kernel : Frame} {boot mem : PhysMem}
    (hboot : BootTables kernel boot) (hinit : (initKernelSpace c kernel).result boot = some ((), mem))
    {events : List TaskEvent} {m : TaskSpaces}
    (hrun : run (taskStep c kernel) ⟨⟨mem, []⟩, [], none⟩ events = some m)
    (hleft : m.space.mem.frames ≠ []) : StacksApart kernel m := by
  obtain ⟨hstart, -, hanchor⟩ := (initKernelSpace_ends hc hboot).returns hinit
  have h : TaskInv kernel (mem.ram kernel) m :=
    run_invariant (fun _ _ _ hm hstep => taskStep_inv hc hm hstep) (taskInv_init hstart hanchor) hrun
  obtain ⟨kind, hinv⟩ := h.space
  -- a page of a stack, by its distance from the anchor
  have hpage : ∀ t ∈ m.tasks, ∀ va, stackBottom t.id ≤ va → va < stackTop t.id → ∃ n,
      va / 4096 = anchorPage + n ∧ n < 2 ^ 27 ∧ stackPages m.tasks n := by
    intro t ht va hlow hhigh
    obtain ⟨n, hva, hn, hn'⟩ := page_of_stack hlow hhigh
    have hfits := h.fits t ht
    exact ⟨n, hva, by omega, .inr ⟨t, ht, hn, hn'⟩⟩
  constructor
  case ids => exact h.ids
  case disjoint =>
    intro t _ t' _ hne
    unfold stackTop stackBottom stackStride
    omega
  case mapped =>
    intro t ht va hlow hhigh
    obtain ⟨n, hva, hn, hmapped⟩ := hpage t ht va hlow hhigh
    obtain ⟨frame, -, hview⟩ := StackInv.view_mapped hinv hleft hn hmapped
    rw [hva]
    exact ⟨frame, hview kernel List.mem_cons_self, hview t.pml4 (h.owners t ht)⟩
  case frames =>
    intro t ht t' ht' va va' frame flags flags' hlow hhigh hlow' hhigh' hv hv'
    obtain ⟨n, hva, hn, hmapped⟩ := hpage t ht va hlow hhigh
    obtain ⟨n', hva', hn', hmapped'⟩ := hpage t' ht' va' hlow' hhigh'
    obtain ⟨f, hkind, hview⟩ := StackInv.view_mapped hinv hleft hn hmapped
    obtain ⟨f', hkind', hview'⟩ := StackInv.view_mapped hinv hleft hn' hmapped'
    rw [hva, hview kernel List.mem_cons_self] at hv
    rw [hva', hview' kernel List.mem_cons_self] at hv'
    -- a frame is used for one page
    cases hv
    cases hv'
    rw [hkind] at hkind'
    rw [hva, hva', (position_stack hn hn').mp (Kind.data.inj hkind')]
  case guard =>
    intro t ht va hlow hhigh r hr
    have hn : t.id * 10 < 2 ^ 27 := by
      have hfits := h.fits t ht
      omega
    rw [page_of_guard hlow hhigh, StackInv.view_stack hinv hr hn,
      (hinv.region hleft _ hn).2 (guard_not_mapped h ht)]
    rfl
  case guard_apart =>
    intro t ht va hlow hhigh
    have hpos := (TaskInv.id_pos h ht).1
    have hva := page_of_guard hlow hhigh
    refine ⟨by omega, fun t' ht' hin => ?_⟩
    obtain ⟨n, hva', hn, hn'⟩ := page_of_stack hin.1 hin.2
    omega
  case image =>
    intro t ht
    have hfits := h.fits t ht
    unfold stackTop stackBottom kernelStackRegionBase stackStride
    omega
  case first_frame =>
    intro t _ ctx words
    have hroom : 8 * (newFrame ctx).length ≤ stackTop t.id := by
      show 160 ≤ stackTop t.id
      unfold stackTop
      omega
    obtain ⟨⟨sp, words'⟩, hpush⟩ := pushWords_total (newFrame ctx) (stackTop t.id) words hroom
    obtain ⟨hsp, -, hsame, -⟩ := pushWords_spec hpush
    have hsp' : sp + 160 = stackTop t.id := hsp
    refine ⟨sp, words', hpush, hsp', fun i hi => onStack_frame hsp' hi, fun a ha => hsame a fun i hi heq => ?_⟩
    have hon : onStack t.id (sp + 8 * i) = true := onStack_frame hsp' hi
    rw [← heq, ha] at hon
    cases hon

/-- A kernel task, and a user task between two processes. -/
def twoTasks : List TaskEvent :=
  [.createProcessPml4 1, .newTask 1, .mapUserRegion ⟨48, 0, 0⟩ 0x400000 4096 .writable, .newUser ⟨48, 0, 0⟩,
    .fork 1 ⟨48, 0, 0⟩]

theorem kernel_stacks_apart_sample : ∃ m, m.tasks = [⟨2, 48⟩, ⟨1, 1⟩] ∧ StacksApart 1 m := by
  have hmain : ((initKernelSpace plainMapper 1).result sampleBoot).bind (fun r =>
      (run (taskStep plainMapper 1) ⟨⟨r.2, []⟩, [], none⟩ twoTasks).map
        fun m => (m.tasks, decide (m.space.mem.frames = []))) = some ([⟨2, 48⟩, ⟨1, 1⟩], false) := by
    decide +kernel
  obtain ⟨⟨u, mem⟩, hinit, hrest⟩ := Option.bind_eq_some_iff.mp hmain
  obtain ⟨m, hrun, htasks⟩ := Option.map_eq_some_iff.mp hrest
  obtain ⟨htasks, hleft⟩ := Prod.mk.inj htasks
  exact ⟨m, htasks, kernel_stacks_apart plainMapper_lawful sampleBoot_tables hinit hrun
    (of_decide_eq_false hleft)⟩

end Turnix
