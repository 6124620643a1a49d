import Turnix.Lib.Rust

/-!
# Physical frames

`FrameAllocator` of `memory.rs` over the memory map of `abi/src/boot.rs`. There is one bump pointer for
all descriptors, and each call scans them from the first one on. `frame_allocator_safe` says that the
frames of any number of calls are distinct, aligned, above the low megabyte, and each inside one usable
descriptor.
-/

namespace Turnix

open Lib

/-! ## The memory map -/

/-- `BootMemoryDescriptor`, the fields that are read. -/
structure BootMemoryDescriptor where
  ty : Nat
  physStart : Nat
  pageCount : Nat
deriving DecidableEq, Repr

/-- `size_of::<BootMemoryDescriptor>()`. -/
def descriptorSize : Nat := 40

/-- `BootMemoryMap`. The pointer is what it points to at each byte offset, or null. -/
structure BootMemoryMap where
  descriptors : Option (Nat → BootMemoryDescriptor)
  mapSize : Nat
  descSize : Nat

/-- `BootMemoryMap::entry_count`. -/
def BootMemoryMap.entryCount (map : BootMemoryMap) : Nat :=
  if map.descSize = 0 then 0 else map.mapSize / map.descSize

/-- `BootMemoryMap::get`. -/
def BootMemoryMap.get (map : BootMemoryMap) (index : Nat) : Option BootMemoryDescriptor :=
  match map.descriptors with
  | none => none
  | some at_ =>
    if index ≥ map.entryCount ∨ map.descSize < descriptorSize then none
    else (checkedMul index map.descSize).map at_

/-- What `BootMemoryMapIter` yields from `index` on, in at most `fuel` steps. -/
def BootMemoryMap.iterFrom (map : BootMemoryMap) : Nat → Nat → List BootMemoryDescriptor
  | 0, _ => []
  | fuel + 1, index =>
    match map.get index with
    | none => []
    | some descriptor => descriptor :: map.iterFrom fuel (index + 1)

/-- `BootMemoryMap::iter`; `get` fails at the index `entry_count`. -/
def BootMemoryMap.iter (map : BootMemoryMap) : List BootMemoryDescriptor :=
  map.iterFrom map.entryCount 0

/-- `MEMORY_TYPE_CONVENTIONAL`. -/
def memoryTypeConventional : Nat := 7

/-- `MEMORY_TYPE_BOOT_SERVICES_CODE`. -/
def memoryTypeBootServicesCode : Nat := 3

/-- `MEMORY_TYPE_BOOT_SERVICES_DATA`. -/
def memoryTypeBootServicesData : Nat := 4

/-- `is_usable`. -/
def BootMemoryDescriptor.isUsable (descriptor : BootMemoryDescriptor) : Bool :=
  descriptor.ty = memoryTypeConventional ∨ descriptor.ty = memoryTypeBootServicesCode ∨
    descriptor.ty = memoryTypeBootServicesData

/-! ## The allocator -/

/-- `PAGE_SIZE`. -/
def pageSize : Nat := 4096

/-- `LOW_MEMORY_CUTOFF`. -/
def lowMemoryCutoff : Nat := 0x100000

/-- `PhysFrame`. -/
structure PhysFrame where
  startAddress : Nat
deriving DecidableEq, Repr

/-- `AddressRange`; its end is excluded. -/
structure AddressRange where
  start : Nat
  stop : Nat
deriving DecidableEq, Repr

/-- `usable_range`. -/
def usableRange (descriptor : BootMemoryDescriptor) : Option AddressRange := do
  let start := descriptor.physStart
  let length ← checkedMul descriptor.pageCount pageSize
  let stop ← checkedAdd start length
  return ⟨start, stop⟩

/-- `align_up`: the value itself if the sum overflows. -/
def FrameAllocator.alignUp (value alignment : Nat) : Nat :=
  if alignment = 0 then value
  else ((checkedAdd value (alignment - 1)).map fun adjusted =>
    adjusted &&& (2 ^ 64 - 1 - (alignment - 1))).getD value

/-- The loop of `allocate_physical_frame`, with the new `next_address`. -/
def allocateLoop (nextAddress : Nat) :
    List BootMemoryDescriptor → Except Panic (Option PhysFrame × Nat)
  | [] => .ok (none, nextAddress)
  | descriptor :: rest =>
    if !descriptor.isUsable then allocateLoop nextAddress rest
    else
      match usableRange descriptor with
      | none => .error ⟨"called `Option::unwrap()` on a `None` value"⟩
      | some range =>
        let candidate := FrameAllocator.alignUp (max nextAddress range.start) pageSize
        if candidate < range.stop then
          match checkedAdd candidate pageSize with
          | none => .ok (none, nextAddress)
          | some next => .ok (some ⟨candidate⟩, next)
        else allocateLoop nextAddress rest

/-- `FrameAllocator`. -/
structure FrameAllocator where
  bootInfo : BootMemoryMap
  nextAddress : Nat

/-- `FrameAllocator::new`. -/
def FrameAllocator.new (bootInfo : BootMemoryMap) : FrameAllocator := ⟨bootInfo, lowMemoryCutoff⟩

/-- `FrameAllocator::allocate_physical_frame`. -/
def FrameAllocator.allocatePhysicalFrame (a : FrameAllocator) :
    Except Panic (Option PhysFrame × FrameAllocator) := do
  let (frame, next) ← allocateLoop a.nextAddress a.bootInfo.iter
  return (frame, { a with nextAddress := next })

/-- The frames that `count` calls return, in order. -/
def FrameAllocator.allocateFrames (a : FrameAllocator) :
    Nat → Except Panic (List PhysFrame × FrameAllocator)
  | 0 => .ok ([], a)
  | count + 1 => do
    let (frame, a) ← a.allocatePhysicalFrame
    let (frames, a) ← a.allocateFrames count
    return (frame.toList ++ frames, a)

/-! ## Safety -/

/-- What UEFI guarantees of a descriptor: its start is aligned and its end is an address. -/
def BootMemoryDescriptor.Sound (descriptor : BootMemoryDescriptor) : Prop :=
  pageSize ∣ descriptor.physStart ∧ descriptor.physStart + descriptor.pageCount * pageSize < 2 ^ 64

/-- The frame lies inside a usable descriptor of the list. -/
def PhysFrame.Usable (frame : PhysFrame) (descriptors : List BootMemoryDescriptor) : Prop :=
  ∃ d ∈ descriptors, d.isUsable = true ∧ d.physStart ≤ frame.startAddress ∧
    frame.startAddress + pageSize ≤ d.physStart + d.pageCount * pageSize

namespace FrameLemmas

theorem usableRange_sound {d : BootMemoryDescriptor} (h : d.Sound) :
    usableRange d = some ⟨d.physStart, d.physStart + d.pageCount * pageSize⟩ := by
  obtain ⟨-, hend⟩ := h
  have hmul : checkedMul d.pageCount pageSize = some (d.pageCount * pageSize) :=
    if_pos (by omega)
  have hadd : checkedAdd d.physStart (d.pageCount * pageSize) =
      some (d.physStart + d.pageCount * pageSize) := checkedAdd_eq_some.mpr ⟨hend, rfl⟩
  unfold usableRange
  simp only [hmul, hadd, Option.bind_eq_bind, Option.bind_some, Option.pure_def]

/-- Where it does not overflow, `align_up` rounds up. -/
theorem alignUp_of_le {value : Nat} (h : value + 4095 < 2 ^ 64) :
    value ≤ FrameAllocator.alignUp value pageSize ∧ pageSize ∣ FrameAllocator.alignUp value pageSize := by
  have hround : FrameAllocator.alignUp value pageSize = roundUp value (2 ^ 12) := by
    unfold FrameAllocator.alignUp pageSize roundUp
    rw [if_neg (by decide), checkedAdd, if_pos h]
    rfl
  rw [hround]
  exact ⟨le_roundUp (by decide) (by omega), dvd_roundUp (by decide) (by omega)⟩

/-- A candidate below the end of an aligned range is aligned, also where `align_up` falls back: there it
is not below the end. -/
theorem alignUp_spec {value stop : Nat} (hstop : pageSize ∣ stop) (hlt : stop < 2 ^ 64)
    (h : FrameAllocator.alignUp value pageSize < stop) :
    value ≤ FrameAllocator.alignUp value pageSize ∧ pageSize ∣ FrameAllocator.alignUp value pageSize := by
  by_cases hv : value + 4095 < 2 ^ 64
  · exact alignUp_of_le hv
  · have hback : FrameAllocator.alignUp value pageSize = value := by
      unfold FrameAllocator.alignUp pageSize checkedAdd
      rw [if_neg (by decide), if_neg hv]
      rfl
    rw [hback] at h
    unfold pageSize at hstop
    omega

/-- What one call can do. -/
theorem allocateLoop_cases (next : Nat) : ∀ {ds : List BootMemoryDescriptor},
    (∀ d ∈ ds, d.isUsable = true → d.Sound) →
    allocateLoop next ds = .ok (none, next) ∨
      ∃ f : PhysFrame, allocateLoop next ds = .ok (some f, f.startAddress + pageSize) ∧
        next ≤ f.startAddress ∧ pageSize ∣ f.startAddress ∧ f.Usable ds
  | [], _ => .inl rfl
  | d :: ds, hds => by
    have hrest := allocateLoop_cases next fun e he => hds e (List.mem_cons_of_mem _ he)
    have hrest' : allocateLoop next ds = .ok (none, next) ∨
        ∃ f : PhysFrame, allocateLoop next ds = .ok (some f, f.startAddress + pageSize) ∧
          next ≤ f.startAddress ∧ pageSize ∣ f.startAddress ∧ f.Usable (d :: ds) := by
      refine hrest.imp id ?_
      rintro ⟨f, heq, hle, hdvd, e, he, hin⟩
      exact ⟨f, heq, hle, hdvd, e, List.mem_cons_of_mem _ he, hin⟩
    unfold allocateLoop
    by_cases hu : d.isUsable = true
    · have hsound := hds d List.mem_cons_self hu
      rw [if_neg (by simp [hu]), usableRange_sound hsound]
      dsimp only
      split
      · next hlt =>
        have hstop : pageSize ∣ d.physStart + d.pageCount * pageSize :=
          Nat.dvd_add hsound.1 (Nat.dvd_mul_left _ _)
        obtain ⟨hle, hdvd⟩ := alignUp_spec hstop hsound.2 hlt
        -- both are multiples of the page size, so a whole page lies between them
        have hfits : FrameAllocator.alignUp (max next d.physStart) pageSize + pageSize ≤
            d.physStart + d.pageCount * pageSize := by
          unfold pageSize at *
          omega
        have hadd : checkedAdd (FrameAllocator.alignUp (max next d.physStart) pageSize) pageSize =
            some (FrameAllocator.alignUp (max next d.physStart) pageSize + pageSize) :=
          checkedAdd_eq_some.mpr ⟨Nat.lt_of_le_of_lt hfits hsound.2, rfl⟩
        generalize FrameAllocator.alignUp (max next d.physStart) pageSize = candidate at *
        rw [hadd]
        refine .inr ⟨⟨candidate⟩, rfl, ?_, hdvd, d, List.mem_cons_self, hu, ?_, hfits⟩
        · exact Nat.le_trans (Nat.le_max_left _ _) hle
        · exact Nat.le_trans (Nat.le_max_right _ _) hle
      · exact hrest'
    · rw [if_pos (by simp [hu])]
      exact hrest'

/-- Any number of calls, from any bump pointer: the frames come in order, none before the pointer. -/
theorem allocateFrames_spec (map : BootMemoryMap) (hmap : ∀ d ∈ map.iter, d.isUsable = true → d.Sound) :
    ∀ (count next : Nat), ∃ frames next',
      FrameAllocator.allocateFrames ⟨map, next⟩ count = .ok (frames, ⟨map, next'⟩) ∧
      frames.Pairwise (fun a b => a.startAddress + pageSize ≤ b.startAddress) ∧
      ∀ f ∈ frames, next ≤ f.startAddress ∧ pageSize ∣ f.startAddress ∧ f.Usable map.iter
  | 0, next => ⟨[], next, rfl, List.Pairwise.nil, fun _ hf => nomatch hf⟩
  | count + 1, next => by
    unfold FrameAllocator.allocateFrames FrameAllocator.allocatePhysicalFrame
    rcases allocateLoop_cases next hmap with hnone | ⟨f, hsome, hle, hdvd, husable⟩
    · obtain ⟨frames, next', heq, hpair, hall⟩ := allocateFrames_spec map hmap count next
      refine ⟨frames, next', ?_, hpair, hall⟩
      dsimp only
      rw [hnone]
      show (FrameAllocator.allocateFrames ⟨map, next⟩ count >>= _) = _
      rw [heq]
      rfl
    · obtain ⟨frames, next', heq, hpair, hall⟩ :=
        allocateFrames_spec map hmap count (f.startAddress + pageSize)
      refine ⟨f :: frames, next', ?_, ?_, ?_⟩
      · dsimp only
        rw [hsome]
        show (FrameAllocator.allocateFrames ⟨map, f.startAddress + pageSize⟩ count >>= _) = _
        rw [heq]
        rfl
      · exact List.pairwise_cons.mpr ⟨fun g hg => (hall g hg).1, hpair⟩
      · intro g hg
        rcases List.mem_cons.mp hg with rfl | hg
        · exact ⟨hle, hdvd, husable⟩
        · obtain ⟨hge, hrest⟩ := hall g hg
          exact ⟨by omega, hrest⟩

end FrameLemmas

open FrameLemmas

/-- Any number of calls on a new allocator returns without a panic frames that are in strictly
increasing order, a page apart, aligned, above the low megabyte, and each inside a usable descriptor. -/
theorem frame_allocator_safe (map : BootMemoryMap)
    (hmap : ∀ d ∈ map.iter, d.isUsable = true → d.Sound) (count : Nat) :
    ∃ frames a, (FrameAllocator.new map).allocateFrames count = .ok (frames, a) ∧
      frames.Pairwise (fun a b => a.startAddress + 4096 ≤ b.startAddress) ∧
      ∀ f ∈ frames, 4096 ∣ f.startAddress ∧ 0x100000 ≤ f.startAddress ∧ f.Usable map.iter := by
  obtain ⟨frames, next, heq, hpair, hall⟩ := allocateFrames_spec map hmap count lowMemoryCutoff
  refine ⟨frames, ⟨map, next⟩, heq, hpair, fun f hf => ?_⟩
  obtain ⟨hle, hdvd, husable⟩ := hall f hf
  exact ⟨hdvd, hle, husable⟩

/-- A map whose descriptors are not in order and overlap. -/
def sampleMap : BootMemoryMap where
  descriptors := some fun offset =>
    if offset = 0 then ⟨7, 0x102000, 2⟩ else if offset = 48 then ⟨4, 0x0, 260⟩ else ⟨2, 0x100000, 1⟩
  mapSize := 144
  descSize := 48

theorem sampleMap_iter : sampleMap.iter = [⟨7, 0x102000, 2⟩, ⟨4, 0x0, 260⟩, ⟨2, 0x100000, 1⟩] := by
  decide +kernel

theorem sampleMap_sound : ∀ d ∈ sampleMap.iter, d.isUsable = true → d.Sound := by
  rw [sampleMap_iter]
  intro d hd _
  simp only [List.mem_cons, List.not_mem_nil, or_false] at hd
  rcases hd with rfl | rfl | rfl <;>
  · unfold BootMemoryDescriptor.Sound pageSize
    decide

theorem frame_allocator_safe_sample :
    ∃ frames a, (FrameAllocator.new sampleMap).allocateFrames 3 = .ok (frames, a) ∧
      frames.Pairwise (fun a b => a.startAddress + 4096 ≤ b.startAddress) ∧
      ∀ f ∈ frames, 4096 ∣ f.startAddress ∧ 0x100000 ≤ f.startAddress ∧ f.Usable sampleMap.iter :=
  frame_allocator_safe sampleMap sampleMap_sound 3

example : ((FrameAllocator.new sampleMap).allocateFrames 4).toOption.map Prod.fst =
    some [⟨0x102000⟩, ⟨0x103000⟩] := by decide +kernel

end Turnix
