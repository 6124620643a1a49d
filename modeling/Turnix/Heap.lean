import Turnix.Lib.Rust
import Turnix.Lib.Span

/-!
# The kernel heap

`memory/allocator/linked_list.rs` and `fixed_size_block.rs`: nine lists of free blocks, one for each
block size, over a first-fit list of free regions. Both kinds of list are threaded through the free
memory itself. Only the allocator writes there, so a list is modelled by the addresses of its nodes;
a node of the region list also holds the region's size.
-/

namespace Turnix

open Lib

/-- `core::alloc::Layout`: the size rounded up to the alignment is at most `isize::MAX`. -/
structure Layout where
  size : Nat
  align : Nat
  pow_two : ∃ k, k ≤ 63 ∧ align = 2 ^ k
  fits : size + align ≤ isizeMax + 1
deriving DecidableEq

/-- `size_of::<ListNode>()` of the region list, which has a size and a pointer. -/
def nodeSize : Nat := 16

/-- `align_of::<ListNode>()`. -/
def nodeAlign : Nat := 8

/-- `align_up`. -/
def alignUp (addr align : Nat) : Except Panic Nat := do
  let _ ← add64 addr align
  return roundUp addr align

/-! ## The region list -/

/-- `LinkedListAllocator`, by the regions behind `head`. -/
structure LinkedListAllocator where
  regions : List Span
deriving DecidableEq, Repr

namespace LinkedListAllocator

/-- `LinkedListAllocator::new`. -/
def new : LinkedListAllocator := ⟨[]⟩

/-- `add_free_region`. -/
def addFreeRegion (a : LinkedListAllocator) (addr size : Nat) :
    Except Panic LinkedListAllocator := do
  ensure ((← alignUp addr nodeAlign) = addr) "assertion `left == right` failed"
  ensure (size ≥ nodeSize) "assertion failed: size >= core::mem::size_of::<ListNode>()"
  return ⟨⟨addr, size⟩ :: a.regions⟩

/-- `LinkedListAllocator::init`. -/
def init (a : LinkedListAllocator) (heapStart heapSize : Nat) : Except Panic LinkedListAllocator :=
  a.addFreeRegion heapStart heapSize

/-- `alloc_from_region`. -/
def allocFromRegion (region : Span) (size align : Nat) : Except Panic (Option Nat) := do
  let allocStart ← alignUp region.start align
  match checkedAdd allocStart size with
  | none => return none
  | some allocEnd =>
    let endAddr ← add64 region.start region.size
    if allocEnd > endAddr then return none
    else
      let excessSize ← usub endAddr allocEnd
      if excessSize > 0 ∧ excessSize < nodeSize then return none
      else return some allocStart

/-- `find_region`: the region, where the allocation starts in it, and the list without it. -/
def findRegion (size align : Nat) : List Span → Except Panic (Option (Span × Nat × List Span))
  | [] => return none
  | region :: next => do
    match ← allocFromRegion region size align with
    | some allocStart => return some (region, allocStart, next)
    | none =>
      match ← findRegion size align next with
      | some (found, allocStart, next) => return some (found, allocStart, region :: next)
      | none => return none

/-- `size_align`; the test is the one of `Layout::align_to`. -/
def sizeAlign (layout : Layout) : Except Panic (Nat × Nat) :=
  let align := max layout.align nodeAlign
  if layout.size + align ≤ isizeMax + 1 then
    .ok (max (roundUp layout.size align) nodeSize, align)
  else .error ⟨"adjusting alignment failed: LayoutError"⟩

/-- `allocate`; a null pointer is 0. -/
def allocate (a : LinkedListAllocator) (layout : Layout) :
    Except Panic (Nat × LinkedListAllocator) := do
  let (size, align) ← sizeAlign layout
  match ← findRegion size align a.regions with
  | none => return (0, a)
  | some (region, allocStart, next) =>
    let allocEnd ← expect "overflow" (checkedAdd allocStart size)
    let endAddr ← add64 region.start region.size
    let excessSize ← usub endAddr allocEnd
    if excessSize > 0 then
      return (allocStart, ← addFreeRegion ⟨next⟩ allocEnd excessSize)
    else return (allocStart, ⟨next⟩)

/-- `deallocate`. -/
def deallocate (a : LinkedListAllocator) (ptr : Nat) (layout : Layout) :
    Except Panic LinkedListAllocator := do
  let (size, _) ← sizeAlign layout
  a.addFreeRegion ptr size

end LinkedListAllocator

/-! ## The block lists -/

/-- `BLOCK_SIZES`. -/
def blockSizes : List Nat := [8, 16, 32, 64, 128, 256, 512, 1024, 2048]

/-- An index of `BLOCK_SIZES`. -/
abbrev BlockClass := Fin blockSizes.length

theorem blockSizes_get : ∀ i : BlockClass, blockSizes.get i = 2 ^ (i.val + 3) := by
  decide

/-- `Layout::from_size_align(block_size, block_size).unwrap()`. -/
def blockLayout (i : BlockClass) : Layout where
  size := blockSizes.get i
  align := blockSizes.get i
  pow_two := ⟨i.val + 3, by have := i.isLt; simp only [blockSizes, List.length] at this; omega,
    blockSizes_get i⟩
  fits := by revert i; decide

/-- `FixedSizeBlockAllocator`. -/
structure FixedSizeBlockAllocator where
  listHeads : BlockClass → List Nat
  fallbackAllocator : LinkedListAllocator

namespace FixedSizeBlockAllocator

/-- `FixedSizeBlockAllocator::new`. -/
def new : FixedSizeBlockAllocator := ⟨fun _ => [], LinkedListAllocator.new⟩

/-- `FixedSizeBlockAllocator::init`. -/
def init (a : FixedSizeBlockAllocator) (heapStart heapSize : Nat) :
    Except Panic FixedSizeBlockAllocator := do
  return { a with fallbackAllocator := ← a.fallbackAllocator.init heapStart heapSize }

/-- `fallback_alloc`. -/
def fallbackAlloc (a : FixedSizeBlockAllocator) (layout : Layout) :
    Except Panic (Nat × FixedSizeBlockAllocator) := do
  let (ptr, fallback) ← a.fallbackAllocator.allocate layout
  return (ptr, { a with fallbackAllocator := fallback })

/-- `list_index`. -/
def listIndex (layout : Layout) : Option BlockClass :=
  let requiredBlockSize := max layout.size layout.align
  (List.finRange blockSizes.length).find? fun i => blockSizes.get i ≥ requiredBlockSize

/-- `GlobalAlloc::alloc`. -/
def alloc (a : FixedSizeBlockAllocator) (layout : Layout) :
    Except Panic (Nat × FixedSizeBlockAllocator) :=
  match listIndex layout with
  | some index =>
    match a.listHeads index with
    | node :: next => .ok (node, { a with listHeads := Function.update a.listHeads index next })
    | [] => a.fallbackAlloc (blockLayout index)
  | none => a.fallbackAlloc layout

/-- `GlobalAlloc::dealloc`. The assertion compares the size of the block lists' one-pointer node. -/
def dealloc (a : FixedSizeBlockAllocator) (ptr : Nat) (layout : Layout) :
    Except Panic FixedSizeBlockAllocator :=
  match listIndex layout with
  | some index =>
    if 8 ≤ blockSizes.get index then
      .ok { a with listHeads := Function.update a.listHeads index (ptr :: a.listHeads index) }
    else .error ⟨"assertion failed: core::mem::size_of::<ListNode>() <= BLOCK_SIZES[index]"⟩
  | none => do
    return { a with fallbackAllocator := ← a.fallbackAllocator.deallocate ptr layout }

end FixedSizeBlockAllocator

/-! ## What the operations do -/

namespace HeapLemmas

open LinkedListAllocator FixedSizeBlockAllocator

theorem alignUp_eq_ok {addr align start : Nat} :
    alignUp addr align = .ok start ↔ addr + align < 2 ^ 64 ∧ roundUp addr align = start := by
  unfold alignUp
  rw [bind_eq_ok]
  constructor
  · rintro ⟨sum, hsum, hstart⟩
    exact ⟨(add64_eq_ok.mp hsum).1, Except.ok.inj hstart⟩
  · rintro ⟨hsum, rfl⟩
    exact ⟨addr + align, add64_eq_ok.mpr ⟨hsum, rfl⟩, rfl⟩

theorem addFreeRegion_eq_ok {a a' : LinkedListAllocator} {addr size : Nat}
    (h : a.addFreeRegion addr size = .ok a') : a'.regions = ⟨addr, size⟩ :: a.regions := by
  unfold addFreeRegion at h
  obtain ⟨start, -, h⟩ := bind_eq_ok.mp h
  obtain ⟨-, -, h⟩ := bind_eq_ok.mp h
  obtain ⟨-, -, h⟩ := bind_eq_ok.mp h
  cases h
  rfl

/-- Where a region is taken, the allocation ends in it, and behind it there is nothing or room for a node. -/
theorem allocFromRegion_fits {region : Span} {size align start : Nat}
    (h : allocFromRegion region size align = .ok (some start)) :
    region.start + align < 2 ^ 64 ∧ roundUp region.start align = start ∧
      region.start + region.size < 2 ^ 64 ∧
      (start + size = region.start + region.size ∨ start + size + nodeSize ≤ region.start + region.size) := by
  unfold allocFromRegion at h
  obtain ⟨allocStart, hstart, h⟩ := bind_eq_ok.mp h
  obtain ⟨hsum, rfl⟩ := alignUp_eq_ok.mp hstart
  split at h
  · cases h
  · next allocEnd hend =>
    obtain ⟨endAddr, hEnd, h⟩ := bind_eq_ok.mp h
    obtain ⟨hlt, rfl⟩ := add64_eq_ok.mp hEnd
    obtain ⟨-, rfl⟩ := checkedAdd_eq_some.mp hend
    split at h
    · cases h
    · next hle =>
      obtain ⟨excess, hexcess, h⟩ := bind_eq_ok.mp h
      obtain ⟨-, rfl⟩ := usub_eq_ok.mp hexcess
      split at h
      · cases h
      · next hnode =>
        cases h
        exact ⟨hsum, rfl, hlt, by omega⟩

/-- It starts at a multiple of the alignment. -/
theorem allocFromRegion_some {region : Span} {size k start : Nat} (hk : k ≤ 63)
    (h : allocFromRegion region size (2 ^ k) = .ok (some start)) :
    2 ^ k ∣ start ∧ (⟨start, size⟩ : Span).Within region := by
  obtain ⟨hsum, rfl, -, hend⟩ := allocFromRegion_fits h
  have hsum' : region.start + 2 ^ k - 1 < 2 ^ 64 := by omega
  refine ⟨dvd_roundUp (by omega) hsum', le_roundUp (by omega) hsum', ?_⟩
  show roundUp region.start (2 ^ k) + size ≤ _
  omega

/-- `find_region` goes past the regions on which `alloc_from_region` fails, and takes the first on which it does
not. -/
theorem findRegion_cases {size align : Nat} : ∀ {regions : List Span} {found : Option (Span × Nat × List Span)},
    findRegion size align regions = .ok found →
    (found = none ∧ ∀ r ∈ regions, allocFromRegion r size align = .ok none) ∨
    ∃ before region after start, regions = before ++ region :: after ∧
      (∀ r ∈ before, allocFromRegion r size align = .ok none) ∧
      allocFromRegion region size align = .ok (some start) ∧ found = some (region, start, before ++ after)
  | [], found, h => by
    cases h
    exact .inl ⟨rfl, fun r hr => absurd hr List.not_mem_nil⟩
  | r :: rest, found, h => by
    unfold findRegion at h
    obtain ⟨taken, htaken, h⟩ := bind_eq_ok.mp h
    cases taken with
    | some start =>
      cases h
      exact .inr ⟨[], r, rest, start, rfl, fun r hr => absurd hr List.not_mem_nil, htaken, rfl⟩
    | none =>
      obtain ⟨found', hfound, h⟩ := bind_eq_ok.mp h
      rcases findRegion_cases hfound with ⟨rfl, hfail⟩ | ⟨before, region, after, start, rfl, hfail, htake, rfl⟩
      · cases h
        exact .inl ⟨rfl, List.forall_mem_cons.mpr ⟨htaken, hfail⟩⟩
      · cases h
        exact .inr ⟨r :: before, region, after, start, rfl, List.forall_mem_cons.mpr ⟨htaken, hfail⟩, htake, rfl⟩

/-- One region is unlinked, on which `alloc_from_region` succeeds. -/
theorem findRegion_some {size align : Nat} {regions next : List Span} {region : Span} {start : Nat}
    (h : findRegion size align regions = .ok (some (region, start, next))) :
    regions.Perm (region :: next) ∧ allocFromRegion region size align = .ok (some start) := by
  rcases findRegion_cases h with ⟨hnone, -⟩ | ⟨before, region', after, start', rfl, -, htake, heq⟩
  · cases hnone
  · cases heq
    exact ⟨List.perm_middle, htake⟩

/-- The size part of `size_align`. -/
def paddedSize (layout : Layout) : Nat :=
  max (roundUp layout.size (max layout.align nodeAlign)) nodeSize

theorem sizeAlign_eq_ok {layout : Layout} {sa : Nat × Nat} (h : sizeAlign layout = .ok sa) :
    sa.1 = paddedSize layout ∧ sa.2 = max layout.align nodeAlign := by
  unfold sizeAlign at h
  dsimp only at h
  split at h
  · cases h
    exact ⟨rfl, rfl⟩
  · cases h

theorem sizeAlign_ok {layout : Layout} (h : layout.size + max layout.align nodeAlign ≤ isizeMax + 1) :
    sizeAlign layout = .ok (paddedSize layout, max layout.align nodeAlign) := if_pos h

theorem sizeAlign_error {layout : Layout} (h : ¬ layout.size + max layout.align nodeAlign ≤ isizeMax + 1) :
    sizeAlign layout = .error ⟨"adjusting alignment failed: LayoutError"⟩ := if_neg h

theorem max_nodeAlign (layout : Layout) :
    ∃ k, k ≤ 63 ∧ max layout.align nodeAlign = 2 ^ k ∧ layout.align ∣ 2 ^ k := by
  obtain ⟨k, hk, hpow⟩ := layout.pow_two
  by_cases h3 : 3 ≤ k
  · refine ⟨k, hk, ?_, hpow ▸ Nat.dvd_refl _⟩
    have : 2 ^ 3 ≤ 2 ^ k := Nat.pow_le_pow_right (by decide) h3
    rw [hpow, nodeAlign]
    omega
  · refine ⟨3, by decide, ?_, hpow ▸ Nat.pow_dvd_pow 2 (by omega)⟩
    have : 2 ^ k ≤ 2 ^ 3 := Nat.pow_le_pow_right (by decide) (by omega)
    rw [hpow, nodeAlign]
    omega

theorem size_le_paddedSize (layout : Layout) : layout.size ≤ paddedSize layout := by
  obtain ⟨k, hk, hmax, -⟩ := max_nodeAlign layout
  have hfits := layout.fits
  have halign : max layout.align nodeAlign ≤ layout.align + nodeAlign := by omega
  have hround : layout.size ≤ roundUp layout.size (2 ^ k) := by
    refine le_roundUp (by omega) ?_
    rw [← hmax]
    unfold isizeMax at hfits
    unfold nodeAlign at halign ⊢
    omega
  rw [paddedSize, hmax]
  omega

/-- An allocation from the region list: nothing fits, or one region is replaced by what is left behind the
allocation. -/
theorem allocate_cases {a a' : LinkedListAllocator} {layout : Layout} {ptr : Nat}
    (h : a.allocate layout = .ok (ptr, a')) :
    (ptr = 0 ∧ a' = a) ∨
    ∃ region next parts, a.regions.Perm (region :: next) ∧ a'.regions = parts ++ next ∧
      allocFromRegion region (paddedSize layout) (max layout.align nodeAlign) = .ok (some ptr) ∧
      (parts = [] ∨ ptr + paddedSize layout < region.start + region.size ∧
        parts = [⟨ptr + paddedSize layout, region.start + region.size - (ptr + paddedSize layout)⟩]) := by
  unfold allocate at h
  obtain ⟨⟨size, align⟩, hsa, h⟩ := bind_eq_ok.mp h
  obtain ⟨rfl, rfl⟩ := sizeAlign_eq_ok hsa
  obtain ⟨found, hfound, h⟩ := bind_eq_ok.mp h
  cases found with
  | none =>
    cases h
    exact .inl ⟨rfl, rfl⟩
  | some found =>
    obtain ⟨region, start, next⟩ := found
    obtain ⟨hperm, htake⟩ := findRegion_some hfound
    obtain ⟨allocEnd, hend, h⟩ := bind_eq_ok.mp h
    obtain ⟨endAddr, hEnd, h⟩ := bind_eq_ok.mp h
    obtain ⟨-, rfl⟩ := add64_eq_ok.mp hEnd
    obtain ⟨-, rfl⟩ := checkedAdd_eq_some.mp (expect_eq_ok.mp hend)
    obtain ⟨excess, hexcess, h⟩ := bind_eq_ok.mp h
    obtain ⟨-, rfl⟩ := usub_eq_ok.mp hexcess
    split at h
    · next hpos =>
      obtain ⟨a'', ha, h⟩ := bind_eq_ok.mp h
      cases h
      exact .inr ⟨region, next, [_], hperm, addFreeRegion_eq_ok ha, htake, .inr ⟨Nat.lt_of_sub_pos hpos, rfl⟩⟩
    · cases h
      exact .inr ⟨region, next, [], hperm, rfl, htake, .inl rfl⟩

/-- The allocation and what is left lie in the region, apart from each other. The gap in front of the allocation is
not put back. -/
theorem allocate_eq_ok {a a' : LinkedListAllocator} {layout : Layout} {ptr : Nat}
    (h : a.allocate layout = .ok (ptr, a')) :
    (ptr = 0 ∧ a' = a) ∨
    ∃ region next parts, a.regions.Perm (region :: next) ∧ a'.regions = parts ++ next ∧
      layout.align ∣ ptr ∧
      (⟨ptr, paddedSize layout⟩ :: parts).Pairwise Span.Disjoint ∧
      ∀ b ∈ (⟨ptr, paddedSize layout⟩ : Span) :: parts, b.Within region := by
  rcases allocate_cases h with hnull | ⟨region, next, parts, hperm, hregions, htake, hparts⟩
  · exact .inl hnull
  · obtain ⟨k, hk, hmax, hdvd⟩ := max_nodeAlign layout
    rw [hmax] at htake
    obtain ⟨hstart, hin⟩ := allocFromRegion_some hk htake
    refine .inr ⟨region, next, parts, hperm, hregions, Nat.dvd_trans hdvd hstart, ?_⟩
    rcases hparts with rfl | ⟨hlt, rfl⟩
    · exact ⟨List.pairwise_singleton _ _, List.forall_mem_singleton.mpr hin⟩
    · refine ⟨List.pairwise_cons.mpr ⟨List.forall_mem_singleton.mpr (.inl (Nat.le_refl _)),
        List.pairwise_singleton _ _⟩, List.forall_mem_cons.mpr ⟨hin, List.forall_mem_singleton.mpr ?_⟩⟩
      obtain ⟨hlow, hhigh⟩ := hin
      constructor <;> dsimp only at * <;> omega

theorem deallocate_eq_ok {a a' : LinkedListAllocator} {layout : Layout} {ptr : Nat}
    (h : a.deallocate ptr layout = .ok a') :
    a'.regions = ⟨ptr, paddedSize layout⟩ :: a.regions := by
  unfold deallocate at h
  obtain ⟨⟨size, align⟩, hsa, h⟩ := bind_eq_ok.mp h
  obtain ⟨rfl, -⟩ := sizeAlign_eq_ok hsa
  exact addFreeRegion_eq_ok h

theorem listIndex_some {layout : Layout} {i : BlockClass} (h : listIndex layout = some i) :
    layout.size ≤ blockSizes.get i ∧ layout.align ≤ blockSizes.get i := by
  have := List.find?_some h
  simp only [ge_iff_le, decide_eq_true_eq] at this
  omega

/-- The alignment of a layout divides the size of its block class. -/
theorem align_dvd_blockSize {layout : Layout} {i : BlockClass} (h : listIndex layout = some i) :
    layout.align ∣ blockSizes.get i := by
  obtain ⟨k, -, hpow⟩ := layout.pow_two
  have hle := (listIndex_some h).2
  rw [blockSizes_get, hpow] at hle
  rw [blockSizes_get, hpow]
  exact Nat.pow_dvd_pow 2 ((Nat.pow_le_pow_iff_right (by decide)).mp hle)

end HeapLemmas

end Turnix
