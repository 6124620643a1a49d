import Turnix.Heap
import Turnix.Lib.Run

/-!
# Runs of the heap

The allocator as `heap::init_heap` leaves it, under any sequence of calls that a Rust program can
make. A run carries the list of live allocations.

The spans of the regions, of the free blocks and of the live allocations are packed into the heap in
every state (`HeapInv`), each block class taken with the size that the region list cut for it. The
contract of `GlobalAlloc` follows (`heap_contract`).
-/

namespace Turnix

open Lib

/-- `HEAP_START`. -/
def heapStart : Nat := 0xFFFFA00000000000

/-- `HEAP_SIZE`. -/
def heapSize : Nat := 100 * 1024

/-- The heap's memory. -/
def heapSpan : Span := ⟨heapStart, heapSize⟩

/-- The allocator and the allocations that have not been freed. -/
structure HeapRun where
  heap : FixedSizeBlockAllocator
  live : List (Nat × Layout)

/-- A call of the allocator. -/
inductive HeapEvent
  | alloc (layout : Layout)
  | dealloc (ptr : Nat) (layout : Layout)

/-- One call with any layout that `core::alloc::Layout` can hold; `dealloc` gets a live pointer with its layout. A
panic ends the run. -/
def allocatorStep (s : HeapRun) : HeapEvent → Option HeapRun
  | .alloc layout =>
    match s.heap.alloc layout with
    | .ok (ptr, heap) => some ⟨heap, if ptr ≠ 0 then (ptr, layout) :: s.live else s.live⟩
    | .error _ => none
  | .dealloc ptr layout =>
    if (ptr, layout) ∈ s.live then
      match s.heap.dealloc ptr layout with
      | .ok heap => some ⟨heap, s.live.erase (ptr, layout)⟩
      | .error _ => none
    else none

/-- The layout has a size and an alignment that Rust types can have. -/
def HeapEvent.OfType : HeapEvent → Prop
  | .alloc layout => layout.size ≠ 0 ∧ layout.align ≤ 2 ^ 29
  | .dealloc _ _ => True

instance : DecidablePred HeapEvent.OfType
  | .alloc layout => inferInstanceAs (Decidable (layout.size ≠ 0 ∧ layout.align ≤ 2 ^ 29))
  | .dealloc _ _ => inferInstanceAs (Decidable True)

/-- One call with the layout of a Rust type. -/
def heapStep (s : HeapRun) (e : HeapEvent) : Option HeapRun := if e.OfType then allocatorStep s e else none

/-- The bytes that the owner of an allocation may use. -/
def usable (a : Nat × Layout) : Span := ⟨a.1, a.2.size⟩

/-- A block of a class: what the region list cuts for its layout. -/
def blockSpan (i : BlockClass) (block : Nat) : Span :=
  ⟨block, HeapLemmas.paddedSize (blockLayout i)⟩

/-- The contract of the allocator in a state. -/
structure HeapContract (s : HeapRun) : Prop where
  aligned : ∀ a ∈ s.live, a.2.align ∣ a.1
  inside : ∀ a ∈ s.live, (usable a).Within heapSpan
  live_disjoint : s.live.Pairwise fun a b => (usable a).Disjoint (usable b)
  blocks_disjoint : ∀ a ∈ s.live, ∀ i, ∀ block ∈ s.heap.listHeads i,
    (usable a).Disjoint (blockSpan i block)
  regions_disjoint : ∀ a ∈ s.live, ∀ region ∈ s.heap.fallbackAllocator.regions,
    (usable a).Disjoint region

/-! ## The invariant -/

namespace HeapLemmas

open FixedSizeBlockAllocator

/-- The layout that was asked of the region list for an allocation. -/
def carvedLayout (layout : Layout) : Layout := ((listIndex layout).map blockLayout).getD layout

/-- What an allocation takes from the heap. -/
def carved (a : Nat × Layout) : Span := ⟨a.1, paddedSize (carvedLayout a.2)⟩

/-- The free blocks. -/
def blockSpans (heads : BlockClass → List Nat) : List Span :=
  (List.finRange blockSizes.length).flatMap fun i => (heads i).map (blockSpan i)

/-- Everything the heap consists of. -/
def spans (s : HeapRun) : List Span :=
  s.heap.fallbackAllocator.regions ++ (blockSpans s.heap.listHeads ++ s.live.map carved)

/-- An address that suits the layout and the class it belongs to. -/
def Suits (ptr : Nat) (layout : Layout) : Prop :=
  layout.align ∣ ptr ∧ ∀ i, listIndex layout = some i → blockSizes.get i ∣ ptr

/-- The invariant of the runs. -/
structure HeapInv (s : HeapRun) : Prop where
  packed : Packed heapSpan (spans s)
  blocks : ∀ i, ∀ block ∈ s.heap.listHeads i, blockSizes.get i ∣ block
  live : ∀ a ∈ s.live, Suits a.1 a.2

theorem carved_of_index {ptr : Nat} {layout : Layout} {i : BlockClass}
    (h : listIndex layout = some i) : carved (ptr, layout) = blockSpan i ptr := by
  simp only [carved, carvedLayout, h, Option.map_some, Option.getD_some, blockSpan]

theorem carved_of_none {ptr : Nat} {layout : Layout} (h : listIndex layout = none) :
    carved (ptr, layout) = ⟨ptr, paddedSize layout⟩ := by
  simp only [carved, carvedLayout, h, Option.map_none, Option.getD_none]

theorem suits_of_index {ptr : Nat} {layout : Layout} {i : BlockClass}
    (h : listIndex layout = some i) (hptr : blockSizes.get i ∣ ptr) : Suits ptr layout := by
  refine ⟨Nat.dvd_trans (align_dvd_blockSize h) hptr, fun j hj => ?_⟩
  rw [h] at hj
  cases hj
  exact hptr

theorem usable_within_carved (a : Nat × Layout) : (usable a).Within (carved a) := by
  refine ⟨Nat.le_refl _, Nat.add_le_add_left ?_ _⟩
  show a.2.size ≤ paddedSize (carvedLayout a.2)
  cases h : listIndex a.2 with
  | none =>
    rw [carvedLayout, h]
    exact size_le_paddedSize a.2
  | some i =>
    rw [carvedLayout, h]
    exact (listIndex_some h).1.trans (size_le_paddedSize (blockLayout i))

/-- Push a block on its list, or take it off again. -/
theorem blockSpans_update (heads : BlockClass → List Nat) (i : BlockClass) (block : Nat)
    (next : List Nat) :
    (blockSpans (Function.update heads i (block :: next))).Perm
      (blockSpan i block :: blockSpans (Function.update heads i next)) := by
  obtain ⟨rest, hrest⟩ := flatMap_update_perm (fun j => (heads j).map (blockSpan j)) i
  have hspans : ∀ l : List Nat, blockSpans (Function.update heads i l) =
      (List.finRange blockSizes.length).flatMap
        (Function.update (fun j => (heads j).map (blockSpan j)) i (l.map (blockSpan i))) := by
    intro l
    refine List.flatMap_congr fun j _ => ?_
    by_cases hj : j = i
    · subst hj
      rw [Function.update_self, Function.update_self]
    · rw [Function.update_of_ne hj, Function.update_of_ne hj]
  rw [hspans, hspans]
  exact (hrest _).trans ((hrest _).symm.cons _)

theorem blocks_update {heads : BlockClass → List Nat} {i : BlockClass} {l : List Nat}
    (h : ∀ j, ∀ block ∈ heads j, blockSizes.get j ∣ block) (hl : ∀ b ∈ l, blockSizes.get i ∣ b) :
    ∀ j, ∀ block ∈ Function.update heads i l j, blockSizes.get j ∣ block := by
  intro j block hb
  by_cases hj : j = i
  · subst hj
    rw [Function.update_self] at hb
    exact hl block hb
  · rw [Function.update_of_ne hj] at hb
    exact h j block hb

theorem spans_cons (heap : FixedSizeBlockAllocator) (a : Nat × Layout) (live : List (Nat × Layout)) :
    (spans ⟨heap, a :: live⟩).Perm (carved a :: spans ⟨heap, live⟩) := by
  unfold spans
  rw [List.map_cons, ← List.append_assoc, ← List.append_assoc]
  exact List.perm_middle

theorem spans_pop {heap : FixedSizeBlockAllocator} {i : BlockClass} {node : Nat} {next : List Nat}
    (h : heap.listHeads i = node :: next) (live : List (Nat × Layout)) :
    (spans ⟨heap, live⟩).Perm (blockSpan i node ::
      spans ⟨{ heap with listHeads := Function.update heap.listHeads i next }, live⟩) := by
  have hupd := blockSpans_update heap.listHeads i node next
  rw [← h, Function.update_eq_self] at hupd
  exact ((hupd.append_right _).append_left _).trans List.perm_middle

/-- A block that is taken from its list moves to the live allocations. -/
theorem spans_take_block {s : HeapRun} {layout : Layout} {i : BlockClass} {node : Nat}
    {next : List Nat} (hi : listIndex layout = some i) (hl : s.heap.listHeads i = node :: next) :
    (spans s).Perm (spans ⟨{ s.heap with listHeads := Function.update s.heap.listHeads i next },
      (node, layout) :: s.live⟩) := by
  refine (spans_pop hl s.live).trans ?_
  rw [← carved_of_index hi]
  exact (spans_cons _ _ _).symm

/-- An allocation from the region list, for the layout that is carved for `layout`. -/
theorem fallbackAlloc_inv {s : HeapRun} {heap : FixedSizeBlockAllocator} {layout : Layout}
    {ptr : Nat} (hs : HeapInv s)
    (h : s.heap.fallbackAlloc (carvedLayout layout) = .ok (ptr, heap))
    (hsuits : (carvedLayout layout).align ∣ ptr → Suits ptr layout) :
    HeapInv ⟨heap, if ptr ≠ 0 then (ptr, layout) :: s.live else s.live⟩ := by
  unfold fallbackAlloc at h
  obtain ⟨⟨ptr', fallback⟩, halloc, h⟩ := bind_eq_ok.mp h
  cases h
  rcases allocate_eq_ok halloc with ⟨rfl, rfl⟩ | ⟨region, next, parts, hperm, heq, hdvd, hsep, hin⟩
  · exact ⟨hs.packed, hs.blocks, hs.live⟩
  · have hpacked : Packed heapSpan (⟨ptr, paddedSize (carvedLayout layout)⟩ :: parts ++
        (next ++ (blockSpans s.heap.listHeads ++ s.live.map carved))) :=
      (hs.packed.perm (hperm.append_right _)).replace hsep hin
    split
    · refine ⟨hpacked.perm ?_, hs.blocks, ?_⟩
      · -- the new allocation moves behind the regions and the blocks
        show List.Perm (carved (ptr, layout) :: parts ++ _) (fallback.regions ++
          (blockSpans s.heap.listHeads ++ carved (ptr, layout) :: s.live.map carved))
        have hmiddle : (carved (ptr, layout) :: (parts ++ next ++ blockSpans s.heap.listHeads ++
            s.live.map carved)).Perm (parts ++ next ++ blockSpans s.heap.listHeads ++
              carved (ptr, layout) :: s.live.map carved) := List.perm_middle.symm
        rw [heq]
        simpa only [List.append_assoc, List.cons_append] using hmiddle
      · intro a ha
        rcases List.mem_cons.mp ha with rfl | ha
        · exact hsuits hdvd
        · exact hs.live a ha
    · refine ⟨?_, hs.blocks, hs.live⟩
      have htail := hpacked.tail
      show Packed heapSpan (fallback.regions ++ (blockSpans s.heap.listHeads ++ s.live.map carved))
      rwa [heq, List.append_assoc]

theorem alloc_inv {s : HeapRun} {heap : FixedSizeBlockAllocator} {layout : Layout} {ptr : Nat}
    (hs : HeapInv s) (h : s.heap.alloc layout = .ok (ptr, heap)) :
    HeapInv ⟨heap, if ptr ≠ 0 then (ptr, layout) :: s.live else s.live⟩ := by
  unfold alloc at h
  cases hi : listIndex layout with
  | none =>
    have hcarved : carvedLayout layout = layout := by rw [carvedLayout, hi]; rfl
    simp only [hi] at h
    refine fallbackAlloc_inv hs (by rwa [hcarved]) fun hdvd => ⟨hcarved ▸ hdvd, fun i h => ?_⟩
    rw [hi] at h
    cases h
  | some i =>
    have hcarved : carvedLayout layout = blockLayout i := by rw [carvedLayout, hi]; rfl
    simp only [hi] at h
    cases hl : s.heap.listHeads i with
    | nil =>
      simp only [hl] at h
      refine fallbackAlloc_inv hs (by rwa [hcarved]) fun hdvd => suits_of_index hi ?_
      rw [hcarved] at hdvd
      exact hdvd
    | cons node next =>
      simp only [hl, Except.ok.injEq, Prod.mk.injEq] at h
      obtain ⟨rfl, rfl⟩ := h
      have hmem : ∀ b ∈ node :: next, blockSizes.get i ∣ b := fun b hb =>
        hs.blocks i b (by rwa [hl])
      split
      · refine ⟨hs.packed.perm (spans_take_block hi hl),
          blocks_update hs.blocks fun b hb => hmem b (List.mem_cons_of_mem node hb), ?_⟩
        intro a ha
        rcases List.mem_cons.mp ha with rfl | ha
        · exact suits_of_index hi (hmem node List.mem_cons_self)
        · exact hs.live a ha
      · refine ⟨?_, blocks_update hs.blocks fun b hb => hmem b (List.mem_cons_of_mem node hb),
          hs.live⟩
        exact (hs.packed.perm (spans_pop hl s.live)).tail

/-- An allocation that is freed moves to its list. -/
theorem spans_dealloc {s : HeapRun} {heap : FixedSizeBlockAllocator} {layout : Layout} {ptr : Nat}
    (hlive : (ptr, layout) ∈ s.live) (h : s.heap.dealloc ptr layout = .ok heap) :
    (spans s).Perm (spans ⟨heap, s.live.erase (ptr, layout)⟩) := by
  have hperm : (spans s).Perm (carved (ptr, layout) :: spans ⟨s.heap, s.live.erase (ptr, layout)⟩) := by
    refine List.Perm.trans ?_ (spans_cons s.heap (ptr, layout) _)
    exact (((List.perm_cons_erase hlive).map carved).append_left _).append_left _
  refine hperm.trans ?_
  unfold dealloc at h
  cases hi : listIndex layout with
  | none =>
    simp only [hi] at h
    obtain ⟨fallback, hfree, h⟩ := bind_eq_ok.mp h
    cases h
    have hregions := deallocate_eq_ok hfree
    rw [← carved_of_none hi] at hregions
    unfold spans
    dsimp only
    rw [hregions]
    exact List.Perm.refl _
  | some i =>
    simp only [hi] at h
    split at h
    · cases h
      rw [carved_of_index hi]
      have hpop := @spans_pop { s.heap with
        listHeads := Function.update s.heap.listHeads i (ptr :: s.heap.listHeads i) } i ptr
        (s.heap.listHeads i) (Function.update_self i _ _) (s.live.erase (ptr, layout))
      rw [Function.update_idem, Function.update_eq_self] at hpop
      exact hpop.symm
    · cases h

theorem dealloc_inv {s : HeapRun} {heap : FixedSizeBlockAllocator} {layout : Layout} {ptr : Nat}
    (hs : HeapInv s) (hlive : (ptr, layout) ∈ s.live)
    (h : s.heap.dealloc ptr layout = .ok heap) :
    HeapInv ⟨heap, s.live.erase (ptr, layout)⟩ := by
  have hblocks : ∀ i, ∀ block ∈ heap.listHeads i, blockSizes.get i ∣ block := by
    unfold dealloc at h
    cases hi : listIndex layout with
    | none =>
      simp only [hi] at h
      obtain ⟨fallback, -, h⟩ := bind_eq_ok.mp h
      cases h
      exact hs.blocks
    | some i =>
      simp only [hi] at h
      split at h
      · cases h
        refine blocks_update hs.blocks fun b hb => ?_
        rcases List.mem_cons.mp hb with rfl | hb
        · exact (hs.live _ hlive).2 i hi
        · exact hs.blocks i b hb
      · cases h
  exact ⟨hs.packed.perm (spans_dealloc hlive h), hblocks, fun a ha =>
    hs.live a (List.mem_of_mem_erase ha)⟩

/-- What a call does. -/
theorem allocatorStep_cases {s s' : HeapRun} {e : HeapEvent} (h : allocatorStep s e = some s') :
    (∃ layout ptr heap, e = .alloc layout ∧ s.heap.alloc layout = .ok (ptr, heap) ∧
      s' = ⟨heap, if ptr ≠ 0 then (ptr, layout) :: s.live else s.live⟩) ∨
    ∃ ptr layout heap, e = .dealloc ptr layout ∧ (ptr, layout) ∈ s.live ∧
      s.heap.dealloc ptr layout = .ok heap ∧ s' = ⟨heap, s.live.erase (ptr, layout)⟩ := by
  cases e with
  | alloc layout =>
    simp only [allocatorStep] at h
    split at h
    · next ptr heap halloc =>
      cases h
      exact .inl ⟨layout, ptr, heap, rfl, halloc, rfl⟩
    · cases h
  | dealloc ptr layout =>
    simp only [allocatorStep] at h
    split at h
    · next hlive =>
      split at h
      · next heap hfree =>
        cases h
        exact .inr ⟨ptr, layout, heap, rfl, hlive, hfree, rfl⟩
      · cases h
    · cases h

/-- A call with a layout of a Rust type is one of them. -/
theorem allocatorStep_of_heapStep {s s' : HeapRun} {e : HeapEvent} (h : heapStep s e = some s') :
    allocatorStep s e = some s' ∧ ∀ layout, e = .alloc layout → layout.align ≤ 2 ^ 29 := by
  obtain ⟨htype, hstep⟩ := Option.ite_none_right_eq_some.mp h
  refine ⟨hstep, ?_⟩
  rintro layout rfl
  exact htype.2

theorem allocatorStep_inv {s s' : HeapRun} {e : HeapEvent} (hs : HeapInv s)
    (h : allocatorStep s e = some s') : HeapInv s' := by
  rcases allocatorStep_cases h with ⟨layout, ptr, heap, rfl, halloc, rfl⟩ |
    ⟨ptr, layout, heap, rfl, hlive, hfree, rfl⟩
  · exact alloc_inv hs halloc
  · exact dealloc_inv hs hlive hfree

theorem heapStep_inv {s s' : HeapRun} {e : HeapEvent} (hs : HeapInv s)
    (h : heapStep s e = some s') : HeapInv s' :=
  allocatorStep_inv hs (allocatorStep_of_heapStep h).1

theorem init_inv {heap : FixedSizeBlockAllocator}
    (h : FixedSizeBlockAllocator.new.init heapStart heapSize = .ok heap) : HeapInv ⟨heap, []⟩ := by
  obtain ⟨fallback, hinit, h⟩ := bind_eq_ok.mp h
  cases h
  have hregions := addFreeRegion_eq_ok hinit
  have hspans : spans ⟨⟨fun _ => [], fallback⟩, []⟩ = [heapSpan] := by
    rw [spans, hregions]
    rfl
  refine ⟨?_, fun i block hb => ?_, fun a ha => ?_⟩
  · rw [FixedSizeBlockAllocator.new, hspans]
    refine ⟨List.pairwise_singleton _ _, fun a ha => ?_⟩
    rw [List.mem_singleton.mp ha]
    exact Span.Within.refl heapSpan
  · cases hb
  · cases ha

theorem contract_of_inv {s : HeapRun} (hs : HeapInv s) : HeapContract s := by
  obtain ⟨-, htail, hregions⟩ := List.pairwise_append.mp hs.packed.separated
  obtain ⟨-, hlive, hblocks⟩ := List.pairwise_append.mp htail
  constructor
  · exact fun a ha => (hs.live a ha).1
  · intro a ha
    refine (usable_within_carved a).trans (hs.packed.inside _ ?_)
    exact List.mem_append_right _ (List.mem_append_right _ (List.mem_map_of_mem ha))
  · rw [List.pairwise_map] at hlive
    exact hlive.imp fun h => h.mono (usable_within_carved _) (usable_within_carved _)
  · intro a ha i block hb
    have hmem : blockSpan i block ∈ blockSpans s.heap.listHeads :=
      List.mem_flatMap.mpr ⟨i, List.mem_finRange i, List.mem_map_of_mem hb⟩
    exact (hblocks _ hmem _ (List.mem_map_of_mem ha)).symm.mono (usable_within_carved a)
      (Span.Within.refl _)
  · intro a ha region hr
    refine (hregions region hr (carved a) ?_).symm.mono (usable_within_carved a)
      (Span.Within.refl _)
    exact List.mem_append_right _ (List.mem_map_of_mem ha)

end HeapLemmas

open HeapLemmas

/-- From the heap that `init_heap` sets up, every run of allocations and matching deallocations keeps
the contract: a live pointer is aligned, its bytes lie in the heap, and they overlap neither those of
another live allocation nor a free block nor a free region. -/
theorem heap_contract {heap : FixedSizeBlockAllocator} {es : List HeapEvent} {s : HeapRun}
    (hinit : FixedSizeBlockAllocator.new.init heapStart heapSize = .ok heap)
    (hrun : run heapStep ⟨heap, []⟩ es = some s) : HeapContract s :=
  contract_of_inv (run_invariant (fun _ _ _ => heapStep_inv) (init_inv hinit) hrun)

/-- A layout of 24 bytes with alignment 8. -/
def sampleLayout : Layout := ⟨24, 8, ⟨3, by decide, by decide⟩, by decide⟩

/-- Two blocks of the same class, the first of which is freed and taken again, beside a large
allocation from the region list. -/
def sampleHeapEvents : List HeapEvent :=
  [.alloc sampleLayout, .alloc sampleLayout,
    .alloc ⟨4000, 4096, ⟨12, by decide, by decide⟩, by decide⟩,
    .dealloc heapStart sampleLayout, .alloc sampleLayout]

theorem heap_contract_sample : ∃ heap s,
    FixedSizeBlockAllocator.new.init heapStart heapSize = .ok heap ∧
    run heapStep ⟨heap, []⟩ sampleHeapEvents = some s ∧
    s.live.map Prod.fst = [heapStart, heapStart + 4096, heapStart + 32] ∧ HeapContract s := by
  have hinit : FixedSizeBlockAllocator.new.init heapStart heapSize =
      .ok ⟨fun _ => [], ⟨[heapSpan]⟩⟩ := rfl
  have hlive : (run heapStep ⟨⟨fun _ => [], ⟨[heapSpan]⟩⟩, []⟩ sampleHeapEvents).map
      (fun s => s.live.map Prod.fst) = some [heapStart, heapStart + 4096, heapStart + 32] := by
    decide +kernel
  obtain ⟨s, hrun, hlive⟩ := Option.map_eq_some_iff.mp hlive
  exact ⟨_, s, hinit, hrun, hlive, heap_contract hinit hrun⟩

end Turnix
