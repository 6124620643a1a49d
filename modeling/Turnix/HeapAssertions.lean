import Turnix.HeapFit

/-!
# The assertions of the heap

The allocator asserts that what it puts on the region list is aligned and large enough for a node, that a block can
hold the node of its list, and it expects additions and layouts to be valid. In every run from a heap that is
aligned itself, what is left of a region is nothing or a region for a node again (`AssertInv`), so none of the
assertions fails.

* `heap_assertions_iff`: one `expect` can fail. `size_align` rounds the size of a layout up to a multiple of 8, and
  that of a size next to `isize::MAX` is too large. All other calls pass.
-/

namespace Turnix

open Lib

/-- `Layout::from_size_align`. -/
def Layout.fromSizeAlign (size align : Nat) : Option Layout :=
  if h : (∃ k, k ≤ 63 ∧ align = 2 ^ k) ∧ size + align ≤ isizeMax + 1 then some ⟨size, align, h.1, h.2⟩
  else none

/-- A call, without what it returns. -/
def HeapRun.call (s : HeapRun) : HeapEvent → Except Panic Unit
  | .alloc layout => s.heap.alloc layout >>= fun _ => .ok ()
  | .dealloc ptr layout => s.heap.dealloc ptr layout >>= fun _ => .ok ()

/-- A call that a program can make: a layout of a Rust type, and a live pointer with its layout. -/
def HeapRun.Allows (s : HeapRun) : HeapEvent → Prop
  | .alloc layout => layout.size ≠ 0 ∧ layout.align ≤ 2 ^ 29
  | .dealloc ptr layout => (ptr, layout) ∈ s.live

/-- A computation that fails no assertion, no `expect` and no subtraction. -/
def Quiet {α : Type} (x : Except Panic α) : Prop := PanicsOnly "attempt to add with overflow" x

/-- The size can be rounded up to the alignment of a node. -/
def Roundable (layout : Layout) : Prop := layout.size + max layout.align nodeAlign ≤ isizeMax + 1

instance (layout : Layout) : Decidable (Roundable layout) := inferInstanceAs (Decidable (_ ≤ _))

open HeapLemmas

/-- `find_region` computes an address past the end of the address space for the call. -/
def HeapRun.SearchOverflows (s : HeapRun) (p : Panic) : HeapEvent → Prop
  | .alloc layout => p.msg = "attempt to add with overflow" ∧
      LinkedListAllocator.findRegion (paddedSize (carvedLayout layout)) (max (carvedLayout layout).align nodeAlign)
        s.heap.fallbackAllocator.regions = .error p
  | .dealloc _ _ => False

/-- A call fails no assertion, no `expect` and no subtraction, and `add_free_region` returns where it is called: if
the call panics, then in `find_region`, at an address past the end of the address space. -/
def HeapRun.Passes (s : HeapRun) (e : HeapEvent) : Prop := ∀ p, s.call e = .error p → s.SearchOverflows p e

/-- The condition on a call. -/
def HeapEvent.Rounds : HeapEvent → Prop
  | .alloc layout => Roundable layout
  | .dealloc _ _ => True

/-! ## The invariant -/

/-- A region that can be on the list. -/
structure ForNode (region : Span) : Prop where
  start : nodeAlign ∣ region.start
  size : nodeAlign ∣ region.size
  node : nodeSize ≤ region.size

namespace HeapLemmas

open LinkedListAllocator FixedSizeBlockAllocator

/-- The regions are for nodes, and the live allocations that go back to the region list too. -/
structure AssertInv (s : HeapRun) : Prop where
  regions : ∀ region ∈ s.heap.fallbackAllocator.regions, ForNode region
  live : ∀ a ∈ s.live, listIndex a.2 = none →
    nodeAlign ∣ a.1 ∧ Roundable a.2 ∧ a.1 + paddedSize a.2 < 2 ^ 64

theorem quiet_alignUp (addr align : Nat) : Quiet (alignUp addr align) :=
  (panicsOnly_add64 addr align).bind fun _ _ => panicsOnly_ok _ _

theorem quiet_allocFromRegion (region : Span) (size align : Nat) : Quiet (allocFromRegion region size align) := by
  unfold allocFromRegion
  refine (quiet_alignUp _ _).bind fun start _ => ?_
  split
  · exact panicsOnly_ok _ _
  · refine (panicsOnly_add64 _ _).bind fun stop _ => ?_
    split
    · exact panicsOnly_ok _ _
    · next hle =>
      rw [usub_eq_ok.mpr ⟨Nat.le_of_not_lt hle, rfl⟩]
      show Quiet (if _ then _ else _)
      split
      · exact panicsOnly_ok _ _
      · exact panicsOnly_ok _ _

theorem quiet_findRegion (size align : Nat) : ∀ regions : List Span, Quiet (findRegion size align regions)
  | [] => panicsOnly_ok _ _
  | region :: next => by
    unfold findRegion
    refine (quiet_allocFromRegion region size align).bind fun found _ => ?_
    cases found with
    | some start => exact panicsOnly_ok _ _
    | none =>
      refine (quiet_findRegion size align next).bind fun found' _ => ?_
      cases found' with
      | some found' => exact panicsOnly_ok _ _
      | none => exact panicsOnly_ok _ _

theorem quiet_addFreeRegion (a : LinkedListAllocator) {addr size : Nat} (hdvd : nodeAlign ∣ addr)
    (hsize : nodeSize ≤ size) : Quiet (a.addFreeRegion addr size) := by
  unfold addFreeRegion
  refine (quiet_alignUp _ _).bind fun start hstart => ?_
  obtain ⟨hsum, rfl⟩ := alignUp_eq_ok.mp hstart
  have hround : roundUp addr nodeAlign = addr := by
    unfold nodeAlign at hsum
    rw [show nodeAlign = 2 ^ 3 from rfl, roundUp_eq (by decide) (by omega)]
    exact (firstMultiple_eq_iff (by decide)).mpr hdvd
  unfold ensure
  rw [if_pos hround, if_pos hsize]
  exact panicsOnly_ok _ _

theorem nodeSize_le_paddedSize (layout : Layout) : nodeSize ≤ paddedSize layout := Nat.le_max_right _ _

/-- An allocation is aligned and ends in the address space, and what is left behind it is for a node. -/
theorem forNode_rest {region : Span} {layout : Layout} {ptr : Nat} (hregion : ForNode region)
    (hround : Roundable layout)
    (htake : allocFromRegion region (paddedSize layout) (max layout.align nodeAlign) = .ok (some ptr)) :
    nodeAlign ∣ ptr ∧ ptr + paddedSize layout < 2 ^ 64 ∧
      (ptr + paddedSize layout < region.start + region.size →
        ForNode ⟨ptr + paddedSize layout, region.start + region.size - (ptr + paddedSize layout)⟩) := by
  obtain ⟨-, -, hlt, hend⟩ := allocFromRegion_fits htake
  obtain ⟨k, hk, hmax, -⟩ := max_nodeAlign layout
  rw [hmax] at htake
  have hptr : nodeAlign ∣ ptr := Nat.dvd_trans (nodeAlign_dvd_align hmax) (allocFromRegion_some hk htake).1
  have hstop : nodeAlign ∣ ptr + paddedSize layout := Nat.dvd_add hptr (nodeAlign_dvd_paddedSize hround)
  refine ⟨hptr, by omega, fun hrest =>
    ⟨hstop, Nat.dvd_sub (Nat.dvd_add hregion.start hregion.size) hstop, ?_⟩⟩
  show nodeSize ≤ region.start + region.size - (ptr + paddedSize layout)
  omega

/-- Behind `find_region` nothing panics: what `allocate` asserts has been tested there. -/
theorem allocate_panics {a : LinkedListAllocator} {layout : Layout} {p : Panic}
    (hregions : ∀ r ∈ a.regions, ForNode r) (hround : Roundable layout) (h : a.allocate layout = .error p) :
    findRegion (paddedSize layout) (max layout.align nodeAlign) a.regions = .error p := by
  unfold allocate at h
  rw [sizeAlign_ok hround] at h
  cases hfound : findRegion (paddedSize layout) (max layout.align nodeAlign) a.regions with
  | error q =>
    simp only [hfound, bind, Except.bind] at h
    cases h
    rfl
  | ok found =>
    cases found with
    | none =>
      simp only [hfound, bind, Except.bind] at h
      cases h
    | some found =>
      obtain ⟨region, start, next⟩ := found
      obtain ⟨hperm, htake⟩ := findRegion_some hfound
      obtain ⟨-, hstop, hrest⟩ := forNode_rest (hregions region (hperm.mem_iff.mpr List.mem_cons_self)) hround htake
      obtain ⟨-, -, hlt, hend⟩ := allocFromRegion_fits htake
      have hle : start + paddedSize layout ≤ region.start + region.size := by omega
      simp only [hfound, bind, Except.bind, checkedAdd_eq_some.mpr ⟨hstop, rfl⟩, expect,
        add64_eq_ok.mpr ⟨hlt, rfl⟩, usub_eq_ok.mpr ⟨hle, rfl⟩] at h
      split at h
      · next hpos =>
        have hnode := hrest (Nat.lt_of_sub_pos hpos)
        have hsize := hnode.node
        have haddr : start + paddedSize layout + nodeAlign < 2 ^ 64 := by
          unfold nodeSize at hsize
          unfold nodeAlign
          dsimp only at hsize
          omega
        rw [addFreeRegion_ok ⟨next⟩ haddr hnode.start hnode.node] at h
        cases h
      · cases h

theorem allocate_forNode {a a' : LinkedListAllocator} {layout : Layout} {ptr : Nat}
    (hregions : ∀ r ∈ a.regions, ForNode r) (hround : Roundable layout)
    (h : a.allocate layout = .ok (ptr, a')) :
    (∀ r ∈ a'.regions, ForNode r) ∧ (ptr ≠ 0 → nodeAlign ∣ ptr ∧ ptr + paddedSize layout < 2 ^ 64) := by
  rcases allocate_cases h with ⟨rfl, rfl⟩ | ⟨region, next, parts, hperm, heq, htake, hparts⟩
  · exact ⟨hregions, fun hne => absurd rfl hne⟩
  · obtain ⟨hptr, hstop, hrest⟩ :=
      forNode_rest (hregions region (hperm.mem_iff.mpr List.mem_cons_self)) hround htake
    refine ⟨fun r hr => ?_, fun _ => ⟨hptr, hstop⟩⟩
    rw [heq, List.mem_append] at hr
    rcases hr with hr | hr
    · rcases hparts with rfl | ⟨hlt, rfl⟩
      · exact absurd hr List.not_mem_nil
      · rw [List.mem_singleton.mp hr]
        exact hrest hlt
    · exact hregions r (hperm.mem_iff.mpr (List.mem_cons_of_mem _ hr))

theorem carvedLayout_roundable {layout : Layout} (h : Roundable layout) : Roundable (carvedLayout layout) := by
  rcases carvedLayout_cases layout with ⟨heq, -⟩ | ⟨i, heq, -⟩
  · rwa [heq]
  · have hle := blockSize_le i
    rw [heq]
    show blockSizes.get i + max (blockSizes.get i) nodeAlign ≤ isizeMax + 1
    unfold isizeMax nodeAlign
    omega

/-! ## Calls -/

theorem call_alloc_error {s : HeapRun} {layout : Layout} {p : Panic} :
    s.call (.alloc layout) = .error p ↔ s.heap.alloc layout = .error p := bind_ok_eq_error

theorem alloc_passes {s : HeapRun} {layout : Layout} (hs : AssertInv s) (hround : Roundable layout) :
    s.Passes (.alloc layout) := by
  intro p hp
  have hpanic := call_alloc_error.mp hp
  rcases alloc_cases s layout with ⟨i, node, next, -, -, hok⟩ | ⟨-, hok⟩
  · rw [hok] at hpanic
    cases hpanic
  · rw [hok] at hpanic
    have hsearch := allocate_panics hs.regions (carvedLayout_roundable hround) (bind_ok_eq_error.mp hpanic)
    exact ⟨quiet_findRegion _ _ _ p hsearch, hsearch⟩

theorem nodeSize_le_blockSize : ∀ i : BlockClass, 8 ≤ blockSizes.get i := by
  decide

theorem dealloc_passes {s : HeapRun} {ptr : Nat} {layout : Layout} (hs : AssertInv s)
    (hlive : (ptr, layout) ∈ s.live) : s.Passes (.dealloc ptr layout) := by
  have hok : ∃ heap, s.heap.dealloc ptr layout = .ok heap := by
    unfold dealloc
    cases hi : listIndex layout with
    | some i => exact ⟨_, if_pos (nodeSize_le_blockSize i)⟩
    | none =>
      obtain ⟨hptr, hround, hstop⟩ := hs.live _ hlive hi
      have hsize := nodeSize_le_paddedSize layout
      have haddr : ptr + nodeAlign < 2 ^ 64 := by
        unfold nodeSize at hsize
        unfold nodeAlign
        dsimp only at hstop
        omega
      simp only [deallocate, sizeAlign_ok hround, bind, Except.bind, addFreeRegion_ok _ haddr hptr hsize]
      exact ⟨_, rfl⟩
  obtain ⟨heap, hok⟩ := hok
  intro p hp
  rw [bind_ok_eq_error.mp hp] at hok
  cases hok

theorem alloc_assertInv {s : HeapRun} {heap : FixedSizeBlockAllocator} {layout : Layout} {ptr : Nat}
    (hs : AssertInv s) (h : s.heap.alloc layout = .ok (ptr, heap)) :
    AssertInv ⟨heap, if ptr ≠ 0 then (ptr, layout) :: s.live else s.live⟩ := by
  have hround : Roundable layout := size_limit_of_alloc h
  -- the regions, and what is known of an allocation that has no class
  have hnew : (∀ region ∈ heap.fallbackAllocator.regions, ForNode region) ∧ (listIndex layout = none → ptr ≠ 0 →
      nodeAlign ∣ ptr ∧ ptr + paddedSize layout < 2 ^ 64) := by
    rcases alloc_cases s layout with ⟨i, node, next, hi, -, hok⟩ | ⟨-, hok⟩
    · rw [hok] at h
      cases h
      refine ⟨hs.regions, fun hnone => ?_⟩
      rw [hi] at hnone
      cases hnone
    · rw [hok] at h
      obtain ⟨⟨ptr', fallback⟩, halloc, h⟩ := bind_eq_ok.mp h
      cases h
      obtain ⟨hregions, hptr⟩ := allocate_forNode hs.regions (carvedLayout_roundable hround) halloc
      refine ⟨hregions, fun hnone => ?_⟩
      rcases carvedLayout_cases layout with ⟨heq, -⟩ | ⟨i, -, hi⟩
      · rwa [heq] at hptr
      · rw [hi] at hnone
        cases hnone
  refine ⟨hnew.1, fun a ha hi => ?_⟩
  dsimp only at ha
  split at ha
  · next hne =>
    rcases List.mem_cons.mp ha with rfl | ha
    · obtain ⟨hptr, hstop⟩ := hnew.2 hi hne
      exact ⟨hptr, hround, hstop⟩
    · exact hs.live a ha hi
  · exact hs.live a ha hi

theorem dealloc_assertInv {s : HeapRun} {heap : FixedSizeBlockAllocator} {layout : Layout} {ptr : Nat}
    (hs : AssertInv s) (hlive : (ptr, layout) ∈ s.live) (h : s.heap.dealloc ptr layout = .ok heap) :
    AssertInv ⟨heap, s.live.erase (ptr, layout)⟩ := by
  refine ⟨?_, fun a ha hi => hs.live a (List.mem_of_mem_erase ha) hi⟩
  unfold dealloc at h
  cases hi : listIndex layout with
  | some i =>
    simp only [hi, if_pos (nodeSize_le_blockSize i)] at h
    cases h
    exact hs.regions
  | none =>
    simp only [hi] at h
    obtain ⟨hptr, hround, -⟩ := hs.live _ hlive hi
    obtain ⟨fallback, hfree, h⟩ := bind_eq_ok.mp h
    cases h
    intro region hregion
    rw [deallocate_eq_ok hfree] at hregion
    rcases List.mem_cons.mp hregion with rfl | hregion
    · exact ⟨hptr, nodeAlign_dvd_paddedSize hround, nodeSize_le_paddedSize layout⟩
    · exact hs.regions region hregion

theorem heapStep_assertInv {s s' : HeapRun} {e : HeapEvent} (hs : AssertInv s) (h : heapStep s e = some s') :
    AssertInv s' := by
  rcases allocatorStep_cases (allocatorStep_of_heapStep h).1 with ⟨layout, ptr, heap, rfl, halloc, rfl⟩ |
    ⟨ptr, layout, heap, rfl, hlive, hfree, rfl⟩
  · exact alloc_assertInv hs halloc
  · exact dealloc_assertInv hs hlive hfree

theorem init_assertInv {start size : Nat} {heap : FixedSizeBlockAllocator}
    (hregion : ForNode ⟨start, size⟩) (h : FixedSizeBlockAllocator.new.init start size = .ok heap) :
    AssertInv ⟨heap, []⟩ := by
  obtain ⟨fallback, hinit, h⟩ := bind_eq_ok.mp h
  cases h
  refine ⟨fun region hin => ?_, fun a ha => absurd ha List.not_mem_nil⟩
  rw [show fallback.regions = [⟨start, size⟩] from addFreeRegion_eq_ok hinit] at hin
  rw [List.mem_singleton.mp hin]
  exact hregion

end HeapLemmas

/-- On a heap that starts at a multiple of 8 with a size that is one too and holds a node, `init` fails no
assertion, the layouts of the block classes are valid, everything on the region list is for a node, and a call
passes all assertions if and only if it is no request for a size that cannot be rounded up. -/
theorem heap_assertions_iff {start size : Nat} (hstart : nodeAlign ∣ start) (hsize : nodeAlign ∣ size)
    (hnode : nodeSize ≤ size) :
    Quiet (FixedSizeBlockAllocator.new.init start size) ∧
    (∀ i, Layout.fromSizeAlign (blockSizes.get i) (blockSizes.get i) = some (blockLayout i)) ∧
    ∀ heap, FixedSizeBlockAllocator.new.init start size = .ok heap → ∀ es s,
      run heapStep ⟨heap, []⟩ es = some s →
      (∀ region ∈ s.heap.fallbackAllocator.regions, nodeAlign ∣ region.start ∧ nodeSize ≤ region.size) ∧
      ∀ e, s.Allows e → (s.Passes e ↔ e.Rounds) := by
  refine ⟨?_, fun i => ?_, fun heap hinit es s hrun => ?_⟩
  · exact (quiet_addFreeRegion _ hstart hnode).bind fun _ _ => panicsOnly_ok _ _
  · exact dif_pos ⟨(blockLayout i).pow_two, (blockLayout i).fits⟩
  · have hs : AssertInv s := run_invariant (fun _ _ _ => heapStep_assertInv)
      (init_assertInv ⟨hstart, hsize, hnode⟩ hinit) hrun
    refine ⟨fun region hin => ⟨(hs.regions region hin).start, (hs.regions region hin).node⟩, fun e hallows => ?_⟩
    cases e with
    | alloc layout =>
      refine ⟨fun hpasses => ?_, alloc_passes hs⟩
      by_contra hround
      have hsearch := hpasses _ (call_alloc_error.mpr (alloc_layoutError hround))
      exact absurd hsearch.1 (by decide)
    | dealloc ptr layout => exact ⟨fun _ => trivial, fun _ => dealloc_passes hs hallows⟩

/-- The kernel's own heap, where a page has been allocated behind a block and is freed. -/
theorem heap_assertions_sample : ∃ heap s,
    FixedSizeBlockAllocator.new.init heapStart heapSize = .ok heap ∧
    run heapStep ⟨heap, []⟩ [.alloc sampleLayout, .alloc pageLayout] = some s ∧
    s.Passes (.dealloc (heapStart + 4096) pageLayout) := by
  have hruns : (run heapStep ⟨⟨fun _ => [], ⟨[heapSpan]⟩⟩, []⟩ [.alloc sampleLayout, .alloc pageLayout]).map
      (fun s => decide ((heapStart + 4096, pageLayout) ∈ s.live)) = some true := by
    decide +kernel
  obtain ⟨s, hrun, hlive⟩ := Option.map_eq_some_iff.mp hruns
  obtain ⟨-, -, hall⟩ := @heap_assertions_iff heapStart heapSize (by decide) (by decide) (by decide)
  have hmem : (heapStart + 4096, pageLayout) ∈ s.live := of_decide_eq_true hlive
  exact ⟨_, s, rfl, hrun, ((hall _ rfl _ s hrun).2 (.dealloc _ _) hmem).mpr trivial⟩

theorem largest_pow_two : ∃ k, k ≤ 63 ∧ 1 = 2 ^ k := ⟨0, by decide, by decide⟩

theorem largest_fits : 2 ^ 63 - 1 + 1 ≤ isizeMax + 1 := by decide

/-- A request for `isize::MAX` bytes. -/
def largestLayout : Layout := ⟨2 ^ 63 - 1, 1, largest_pow_two, largest_fits⟩

/-- It is a layout of a byte array, and the fresh heap fails an `expect` instead of returning null. -/
theorem largest_layout_panics : ∃ heap,
    FixedSizeBlockAllocator.new.init heapStart heapSize = .ok heap ∧
    HeapRun.Allows ⟨heap, []⟩ (.alloc largestLayout) ∧
    (heap.alloc largestLayout).map Prod.fst = .error ⟨"adjusting alignment failed: LayoutError"⟩ :=
  ⟨⟨fun _ => [], ⟨[heapSpan]⟩⟩, rfl, ⟨by decide, by decide⟩, by decide +kernel⟩

end Turnix
