import Turnix.HeapRuns

/-!
# What the heap gives and what it keeps

An exact account of an allocation from the region list: which region it takes (`HasRoom`, first fit),
where it starts there, and how many bytes the free list has afterwards.

* `heap_bytes_conserved_iff`: the bytes between the start of the region and the aligned start of the
  allocation are on no list any more, so the heap keeps its bytes exactly if no allocation leaves such a
  gap.
* `alloc_answers_iff`: `align_up` adds the alignment to an address near the top of the address space, so
  `alloc` answers exactly for the alignments that are smaller than what is left above the heap.
-/

namespace Turnix

open Lib

/-- The first multiple of `align` at or after `addr`. -/
def firstMultiple (addr align : Nat) : Nat := (addr + align - 1) / align * align

/-- A region has room for an allocation: the allocation ends in the region, and behind it there is
nothing or enough for a node of the list. -/
def HasRoom (size align : Nat) (region : Span) : Prop :=
  firstMultiple region.start align + size = region.start + region.size ∨
  firstMultiple region.start align + size + nodeSize ≤ region.start + region.size

instance (size align : Nat) (region : Span) : Decidable (HasRoom size align region) :=
  inferInstanceAs (Decidable (_ ∨ _))

open HeapLemmas

/-- The first region that has room for what a request asks of the region list. -/
def HeapRun.firstRoom (s : HeapRun) (layout : Layout) : Option Span :=
  s.heap.fallbackAllocator.regions.find?
    (HasRoom (paddedSize (carvedLayout layout)) (max (carvedLayout layout).align nodeAlign))

/-- A free block of the request's class. -/
def HeapRun.HasBlock (s : HeapRun) (layout : Layout) : Prop :=
  ∃ i ∈ FixedSizeBlockAllocator.listIndex layout, s.heap.listHeads i ≠ []

instance (s : HeapRun) (layout : Layout) : Decidable (s.HasBlock layout) :=
  inferInstanceAs (Decidable (∃ i ∈ FixedSizeBlockAllocator.listIndex layout, s.heap.listHeads i ≠ []))

/-- The bytes of the regions, of the free blocks and of the live allocations. -/
def heapBytes (s : HeapRun) : Nat := totalSize (spans s)

/-- The call drops no byte: a free block serves it, or no region does, or the first region that has room
starts at a multiple of the alignment. -/
def DropsNothing (s : HeapRun) : HeapEvent → Prop
  | .alloc layout => s.HasBlock layout ∨ ∀ region ∈ s.firstRoom layout,
      max (carvedLayout layout).align nodeAlign ∣ region.start
  | .dealloc _ _ => True

instance (s : HeapRun) : (e : HeapEvent) → Decidable (DropsNothing s e)
  | .alloc layout => inferInstanceAs (Decidable (s.HasBlock layout ∨ ∀ region ∈ s.firstRoom layout,
      max (carvedLayout layout).align nodeAlign ∣ region.start))
  | .dealloc _ _ => isTrue trivial

/-- `alloc` answers: it computes no address past the end of the address space, gives null exactly if
neither a block nor a region can serve the request, and a pointer only into the heap. -/
def Answers (s : HeapRun) (layout : Layout) : Prop :=
  ∃ ptr heap, s.heap.alloc layout = .ok (ptr, heap) ∧
    (ptr = 0 ↔ ¬ s.HasBlock layout ∧ s.firstRoom layout = none) ∧
    (ptr ≠ 0 → (usable (ptr, layout)).Within heapSpan)

/-! ## The region list, exactly -/

namespace HeapLemmas

open LinkedListAllocator FixedSizeBlockAllocator

theorem le_firstMultiple {addr align : Nat} (h : 0 < align) : addr ≤ firstMultiple addr align := by
  have hdiv := Nat.div_add_mod (addr + align - 1) align
  have hmod := Nat.mod_lt (addr + align - 1) h
  rw [Nat.mul_comm] at hdiv
  unfold firstMultiple
  omega

/-- It is the least one. -/
theorem firstMultiple_least {addr align b : Nat} (h : 0 < align) (hdvd : align ∣ b) (hle : addr ≤ b) :
    firstMultiple addr align ≤ b := by
  obtain ⟨q, rfl⟩ := hdvd
  have hdiv : (addr + align - 1) / align < q + 1 := by
    rw [Nat.div_lt_iff_lt_mul h, Nat.add_mul, Nat.one_mul, Nat.mul_comm q]
    omega
  calc firstMultiple addr align = (addr + align - 1) / align * align := rfl
    _ ≤ q * align := Nat.mul_le_mul_right _ (Nat.le_of_lt_succ hdiv)
    _ = align * q := Nat.mul_comm _ _

theorem firstMultiple_eq_iff {addr align : Nat} (h : 0 < align) :
    firstMultiple addr align = addr ↔ align ∣ addr := by
  constructor
  · intro heq
    exact ⟨(addr + align - 1) / align, by rw [Nat.mul_comm]; exact heq.symm⟩
  · rintro ⟨q, rfl⟩
    have hdiv : (align * q + align - 1) / align = q := by
      rw [Nat.add_sub_assoc h, Nat.mul_add_div h, Nat.div_eq_of_lt (Nat.sub_one_lt_of_lt h), Nat.add_zero]
    rw [firstMultiple, hdiv, Nat.mul_comm]

/-- The end of a region in the heap is an address. -/
theorem end_lt_of_within {region : Span} (h : region.Within heapSpan) :
    heapStart ≤ region.start ∧ region.start + region.size ≤ heapStart + heapSize := h

theorem allocFromRegion_eq {region : Span} {size k : Nat} (hsum : region.start + 2 ^ k < 2 ^ 64)
    (hlimit : region.start + region.size < 2 ^ 64) :
    allocFromRegion region size (2 ^ k) =
      .ok (if HasRoom size (2 ^ k) region then some (firstMultiple region.start (2 ^ k)) else none) := by
  have hk : k < 64 := (Nat.pow_lt_pow_iff_right (a := 2) (by decide)).mp (by omega)
  have hstart : alignUp region.start (2 ^ k) = .ok (firstMultiple region.start (2 ^ k)) :=
    alignUp_eq_ok.mpr ⟨hsum, roundUp_eq (by omega) (by omega)⟩
  have hend : add64 region.start region.size = .ok (region.start + region.size) := add64_eq_ok.mpr ⟨hlimit, rfl⟩
  have hroom : HasRoom size (2 ^ k) region ↔
      firstMultiple region.start (2 ^ k) + size = region.start + region.size ∨
      firstMultiple region.start (2 ^ k) + size + 16 ≤ region.start + region.size := Iff.rfl
  simp only [allocFromRegion, hstart, bind, Except.bind]
  cases hadd : checkedAdd (firstMultiple region.start (2 ^ k)) size with
  | none =>
    have hover : ¬ firstMultiple region.start (2 ^ k) + size < 2 ^ 64 := fun h => by
      rw [checkedAdd, if_pos h] at hadd
      cases hadd
    rw [if_neg (by rw [hroom]; omega)]
    rfl
  | some allocEnd =>
    obtain ⟨-, rfl⟩ := checkedAdd_eq_some.mp hadd
    dsimp only
    rw [hend]
    show (if firstMultiple region.start (2 ^ k) + size > region.start + region.size then _ else _) = _
    unfold nodeSize
    split
    · rw [if_neg (by rw [hroom]; omega)]
      rfl
    · next hle =>
      rw [usub_eq_ok.mpr ⟨Nat.le_of_not_lt hle, rfl⟩]
      show (if _ ∧ _ then _ else _) = _
      split
      · rw [if_neg (by rw [hroom]; omega)]
        rfl
      · rw [if_pos (by rw [hroom]; omega)]
        rfl

theorem allocFromRegion_overflow {region : Span} {size align : Nat}
    (hsum : 2 ^ 64 ≤ region.start + align) :
    allocFromRegion region size align = .error ⟨"attempt to add with overflow"⟩ := by
  unfold allocFromRegion alignUp add64
  rw [if_neg (by omega)]
  rfl

/-- `find_region` ends if no test of a region panics. -/
theorem findRegion_ok {size align : Nat} : ∀ {regions : List Span},
    (∀ r ∈ regions, ∃ taken, allocFromRegion r size align = .ok taken) →
    ∃ found, findRegion size align regions = .ok found
  | [], _ => ⟨none, rfl⟩
  | r :: rest, h => by
    obtain ⟨⟨taken, htaken⟩, hrest⟩ := List.forall_mem_cons.mp h
    obtain ⟨found, hfound⟩ := findRegion_ok hrest
    cases taken with
    | some start => exact ⟨some (r, start, rest), by rw [findRegion, htaken]; rfl⟩
    | none =>
      simp only [findRegion, htaken, hfound, bind, Except.bind]
      cases found with
      | none => exact ⟨none, rfl⟩
      | some found => exact ⟨_, rfl⟩

/-- `find_region` takes the first region that has room. -/
theorem findRegion_eq {size k : Nat} (hk : k ≤ 46) {regions : List Span}
    (hin : ∀ region ∈ regions, region.Within heapSpan) :
    (findRegion size (2 ^ k) regions = .ok none ∧ regions.find? (HasRoom size (2 ^ k)) = none) ∨
    ∃ region next, regions.Perm (region :: next) ∧
      findRegion size (2 ^ k) regions =
        .ok (some (region, firstMultiple region.start (2 ^ k), next)) ∧
      regions.find? (HasRoom size (2 ^ k)) = some region := by
  have htry : ∀ r ∈ regions, allocFromRegion r size (2 ^ k) =
      .ok (if HasRoom size (2 ^ k) r then some (firstMultiple r.start (2 ^ k)) else none) := by
    intro r hr
    have hstop := (end_lt_of_within (hin r hr)).2
    have hpow : 2 ^ k ≤ 2 ^ 46 := Nat.pow_le_pow_right (by decide) hk
    unfold heapStart heapSize at hstop
    exact allocFromRegion_eq (by omega) (by omega)
  have hfails : ∀ r ∈ regions, allocFromRegion r size (2 ^ k) = .ok none → ¬ HasRoom size (2 ^ k) r := by
    intro r hr hnone hroom
    rw [htry r hr, if_pos hroom] at hnone
    cases hnone
  obtain ⟨found, hfound⟩ := findRegion_ok fun r hr => ⟨_, htry r hr⟩
  rcases findRegion_cases hfound with ⟨rfl, hnone⟩ | ⟨before, region, after, start, rfl, hbefore, htake, rfl⟩
  · refine .inl ⟨hfound, List.find?_eq_none.mpr fun r hr => ?_⟩
    simpa using hfails r hr (hnone r hr)
  · have hmem : region ∈ before ++ region :: after := List.mem_append_right _ List.mem_cons_self
    have hroom : HasRoom size (2 ^ k) region := by
      by_contra hroom
      rw [htry region hmem, if_neg hroom] at htake
      cases htake
    rw [htry region hmem, if_pos hroom] at htake
    cases htake
    refine .inr ⟨region, before ++ after, List.perm_middle, hfound, ?_⟩
    refine List.find?_eq_some_iff_append.mpr ⟨by simpa using hroom, before, after, rfl, fun r hr => ?_⟩
    simpa using hfails r (List.mem_append_left _ hr) (hbefore r hr)

theorem nodeAlign_dvd_align {layout : Layout} {k : Nat} (h : max layout.align nodeAlign = 2 ^ k) :
    nodeAlign ∣ 2 ^ k := by
  have hle : nodeAlign ≤ 2 ^ k := h ▸ Nat.le_max_right _ _
  exact Nat.pow_dvd_pow 2 ((Nat.pow_le_pow_iff_right (a := 2) (n := 3) (by decide)).mp hle)

theorem nodeAlign_dvd_paddedSize {layout : Layout}
    (h : layout.size + max layout.align nodeAlign ≤ isizeMax + 1) : nodeAlign ∣ paddedSize layout := by
  obtain ⟨k, hk, hmax, -⟩ := max_nodeAlign layout
  have hdvd : 2 ^ k ∣ roundUp layout.size (2 ^ k) := by
    refine dvd_roundUp (by omega) ?_
    rw [← hmax]
    unfold isizeMax at h
    omega
  rw [paddedSize, hmax]
  rcases Nat.le_total (roundUp layout.size (2 ^ k)) nodeSize with hle | hle
  · rw [Nat.max_eq_right hle]
    decide
  · rw [Nat.max_eq_left hle]
    exact Nat.dvd_trans (nodeAlign_dvd_align hmax) hdvd

theorem addFreeRegion_ok (a : LinkedListAllocator) {addr size : Nat} (haddr : addr + nodeAlign < 2 ^ 64)
    (hdvd : nodeAlign ∣ addr) (hsize : nodeSize ≤ size) :
    a.addFreeRegion addr size = .ok ⟨⟨addr, size⟩ :: a.regions⟩ := by
  have hround : roundUp addr (2 ^ 3) = addr := by
    rw [roundUp_eq (by decide) (by unfold nodeAlign at haddr; omega)]
    exact (firstMultiple_eq_iff (by decide)).mpr hdvd
  have halign : alignUp addr nodeAlign = .ok addr := alignUp_eq_ok.mpr ⟨haddr, hround⟩
  unfold addFreeRegion
  rw [halign]
  simp only [ensure, bind, Except.bind, ↓reduceIte, ge_iff_le, hsize]
  rfl

/-- An allocation from the region list, exactly: no region has room, or the first one that has is
replaced by what is behind the allocation. -/
theorem allocate_exact {a : LinkedListAllocator} {layout : Layout}
    (hin : ∀ region ∈ a.regions, region.Within heapSpan)
    (hsize : layout.size + max layout.align nodeAlign ≤ isizeMax + 1) (halign : layout.align ≤ 2 ^ 46) :
    (a.allocate layout = .ok (0, a) ∧
      a.regions.find? (HasRoom (paddedSize layout) (max layout.align nodeAlign)) = none) ∨
    ∃ region a', a.regions.find? (HasRoom (paddedSize layout) (max layout.align nodeAlign)) =
        some region ∧
      a.allocate layout = .ok (firstMultiple region.start (max layout.align nodeAlign), a') ∧
      totalSize a'.regions + paddedSize layout +
        (firstMultiple region.start (max layout.align nodeAlign) - region.start) =
          totalSize a.regions := by
  obtain ⟨k, -, hmax, -⟩ := max_nodeAlign layout
  have hk : k ≤ 46 := by
    have hle : 2 ^ k ≤ 2 ^ 46 := by
      rw [← hmax]
      exact Nat.max_le.mpr ⟨halign, by decide⟩
    exact (Nat.pow_le_pow_iff_right (by decide)).mp hle
  have hpad := nodeAlign_dvd_paddedSize hsize
  unfold allocate
  rw [sizeAlign_ok hsize]
  simp only [hmax]
  rcases @findRegion_eq (paddedSize layout) k hk _ hin with ⟨hnone, hfind⟩ |
    ⟨region, next, hperm, hsome, hfind⟩
  · left
    refine ⟨?_, hfind⟩
    show (findRegion _ _ _ >>= _) = _
    rw [hnone]
    rfl
  · right
    have hroom : HasRoom (paddedSize layout) (2 ^ k) region := by
      have htest := List.find?_some hfind
      exact of_decide_eq_true htest
    have hregion := end_lt_of_within (hin region (List.mem_of_find?_eq_some hfind))
    have hlimit : heapStart + heapSize + 8 < 2 ^ 64 := by decide
    have hle : region.start ≤ firstMultiple region.start (2 ^ k) := le_firstMultiple (Nat.two_pow_pos k)
    have hdvd : nodeAlign ∣ firstMultiple region.start (2 ^ k) + paddedSize layout :=
      Nat.dvd_add (Nat.dvd_trans (nodeAlign_dvd_align hmax) (Nat.dvd_mul_left _ _)) hpad
    have htotal : totalSize a.regions = region.size + totalSize next := by
      rw [totalSize_perm hperm, totalSize_cons]
    unfold HasRoom at hroom
    unfold nodeSize at hroom
    refine ⟨region, ?_⟩
    generalize firstMultiple region.start (2 ^ k) = start at *
    have hend : checkedAdd start (paddedSize layout) = some (start + paddedSize layout) :=
      checkedAdd_eq_some.mpr ⟨by omega, rfl⟩
    have hEnd : add64 region.start region.size = .ok (region.start + region.size) :=
      add64_eq_ok.mpr ⟨by omega, rfl⟩
    have hsub : usub (region.start + region.size) (start + paddedSize layout) =
        .ok (region.start + region.size - (start + paddedSize layout)) := usub_eq_ok.mpr ⟨by omega, rfl⟩
    show ∃ a', _ ∧ (findRegion _ _ _ >>= _) = _ ∧ _
    rw [hsome]
    simp only [bind, Except.bind, hend, expect, hEnd, hsub]
    split
    · next hexcess =>
      have hadd := @addFreeRegion_ok ⟨next⟩ (start + paddedSize layout)
        (region.start + region.size - (start + paddedSize layout))
        (by unfold nodeAlign; omega) hdvd (by unfold nodeSize; omega)
      rw [hadd]
      refine ⟨_, hfind, rfl, ?_⟩
      rw [totalSize_cons]
      dsimp only
      omega
    · refine ⟨_, hfind, rfl, ?_⟩
      dsimp only
      omega

theorem allocate_overflow {a : LinkedListAllocator} {layout : Layout}
    (hin : ∀ region ∈ a.regions, region.Within heapSpan) (hne : a.regions ≠ [])
    (halign : ¬ layout.align ≤ 2 ^ 46) : ∃ p, a.allocate layout = .error p := by
  unfold allocate
  cases hsa : sizeAlign layout with
  | error p => exact ⟨p, rfl⟩
  | ok sa =>
    obtain ⟨hsize, hmax⟩ := sizeAlign_eq_ok hsa
    obtain ⟨region, rest, hregions⟩ := List.exists_cons_of_ne_nil hne
    have hpow : 2 ^ 47 ≤ layout.align := by
      obtain ⟨k, -, hk⟩ := layout.pow_two
      rw [hk] at halign ⊢
      refine Nat.pow_le_pow_right (by decide) ?_
      by_contra hlt
      exact halign (Nat.pow_le_pow_right (by decide) (by omega))
    have hstart := (end_lt_of_within (hin region (by rw [hregions]; exact List.mem_cons_self))).1
    have hsum : 2 ^ 64 ≤ region.start + sa.2 := by
      rw [hmax]
      unfold heapStart at hstart
      omega
    have hfind : findRegion sa.1 sa.2 a.regions = .error ⟨"attempt to add with overflow"⟩ := by
      rw [hregions, findRegion, allocFromRegion_overflow hsum]
      rfl
    refine ⟨⟨"attempt to add with overflow"⟩, ?_⟩
    show (findRegion sa.1 sa.2 a.regions >>= _) = _
    rw [hfind]
    rfl

/-! ## `alloc` -/

/-- `alloc` takes a free block of the class, or asks the region list. -/
theorem alloc_cases (s : HeapRun) (layout : Layout) :
    (∃ i node next, listIndex layout = some i ∧ s.heap.listHeads i = node :: next ∧
      s.heap.alloc layout =
        .ok (node, { s.heap with listHeads := Function.update s.heap.listHeads i next })) ∨
    (¬ s.HasBlock layout ∧ s.heap.alloc layout = s.heap.fallbackAlloc (carvedLayout layout)) := by
  unfold alloc HeapRun.HasBlock carvedLayout
  cases hi : listIndex layout with
  | none => exact .inr ⟨fun ⟨i, h, _⟩ => Option.some_ne_none i h.symm, rfl⟩
  | some i =>
    cases hl : s.heap.listHeads i with
    | cons node next =>
      left
      refine ⟨i, node, next, rfl, hl, ?_⟩
      simp only [hl]
    | nil =>
      right
      constructor
      · rintro ⟨j, hj, hne⟩
        cases hj
        exact hne hl
      · simp only [hl, Option.map_some, Option.getD_some]

theorem carvedLayout_cases (layout : Layout) :
    (carvedLayout layout = layout ∧ listIndex layout = none) ∨
    ∃ i, carvedLayout layout = blockLayout i ∧ listIndex layout = some i := by
  unfold carvedLayout
  cases hi : listIndex layout with
  | none => exact .inl ⟨rfl, rfl⟩
  | some i => exact .inr ⟨i, rfl, rfl⟩

theorem blockSize_le (i : BlockClass) : blockSizes.get i ≤ 2048 := by
  revert i
  decide

/-- The layout that is asked of the region list is within the same limits. -/
theorem carvedLayout_limits {layout : Layout}
    (hsize : layout.size + max layout.align nodeAlign ≤ isizeMax + 1) (halign : layout.align ≤ 2 ^ 46) :
    (carvedLayout layout).size + max (carvedLayout layout).align nodeAlign ≤ isizeMax + 1 ∧
    (carvedLayout layout).align ≤ 2 ^ 46 := by
  rcases carvedLayout_cases layout with ⟨heq, -⟩ | ⟨i, heq, -⟩
  · rw [heq]
    exact ⟨hsize, halign⟩
  · rw [heq]
    have hle := blockSize_le i
    show blockSizes.get i + max (blockSizes.get i) nodeAlign ≤ isizeMax + 1 ∧
      blockSizes.get i ≤ 2 ^ 46
    unfold isizeMax nodeAlign
    omega

/-- A layout that belongs to a class is within the limits. -/
theorem limits_of_index {layout : Layout} {i : BlockClass} (h : listIndex layout = some i) :
    layout.size + max layout.align nodeAlign ≤ isizeMax + 1 ∧ layout.align ≤ 2 ^ 46 := by
  obtain ⟨hsize, halign⟩ := listIndex_some h
  have hle := blockSize_le i
  unfold isizeMax nodeAlign
  omega

/-- A layout that cannot be aligned to a node belongs to no class, and `size_align` fails. -/
theorem alloc_layoutError {s : HeapRun} {layout : Layout}
    (h : ¬ layout.size + max layout.align nodeAlign ≤ isizeMax + 1) :
    s.heap.alloc layout = .error ⟨"adjusting alignment failed: LayoutError"⟩ := by
  cases hi : listIndex layout with
  | some i => exact absurd (limits_of_index hi).1 h
  | none => simp only [alloc, hi, fallbackAlloc, allocate, sizeAlign_error h, bind, Except.bind]

theorem size_limit_of_alloc {s : HeapRun} {layout : Layout} {r : Nat × FixedSizeBlockAllocator}
    (h : s.heap.alloc layout = .ok r) :
    layout.size + max layout.align nodeAlign ≤ isizeMax + 1 := by
  by_contra hlimit
  rw [alloc_layoutError hlimit] at h
  cases h

theorem regions_within {s : HeapRun} (hs : HeapInv s) :
    ∀ region ∈ s.heap.fallbackAllocator.regions, region.Within heapSpan := fun region h =>
  hs.packed.inside region (List.mem_append_left _ h)

theorem block_ne_zero {s : HeapRun} (hs : HeapInv s) {i : BlockClass} {node : Nat} {next : List Nat}
    (hl : s.heap.listHeads i = node :: next) : node ≠ 0 := by
  have hmem : blockSpan i node ∈ spans s :=
    (spans_pop hl s.live).mem_iff.mpr List.mem_cons_self
  have hstart : heapStart ≤ node := (hs.packed.inside _ hmem).1
  unfold heapStart at hstart
  omega

theorem firstMultiple_ne_zero {s : HeapRun} (hs : HeapInv s) {layout : Layout} {region : Span}
    (h : s.firstRoom layout = some region) :
    firstMultiple region.start (max (carvedLayout layout).align nodeAlign) ≠ 0 := by
  have hstart := (end_lt_of_within (regions_within hs region (List.mem_of_find?_eq_some h))).1
  have hle : region.start ≤ firstMultiple region.start (max (carvedLayout layout).align nodeAlign) :=
    le_firstMultiple (Nat.lt_of_lt_of_le (by decide) (Nat.le_max_right _ nodeAlign))
  unfold heapStart at hstart
  omega

/-- `alloc` without a free block, for a layout within the limits. -/
theorem alloc_regions {s : HeapRun} (hs : HeapInv s) {layout : Layout}
    (hblock : s.heap.alloc layout = s.heap.fallbackAlloc (carvedLayout layout))
    (hsize : layout.size + max layout.align nodeAlign ≤ isizeMax + 1) (halign : layout.align ≤ 2 ^ 46) :
    (s.heap.alloc layout = .ok (0, s.heap) ∧ s.firstRoom layout = none) ∨
    ∃ region fallback, s.firstRoom layout = some region ∧
      s.heap.alloc layout =
        .ok (firstMultiple region.start (max (carvedLayout layout).align nodeAlign),
          { s.heap with fallbackAllocator := fallback }) ∧
      totalSize fallback.regions + paddedSize (carvedLayout layout) +
        (firstMultiple region.start (max (carvedLayout layout).align nodeAlign) - region.start) =
          totalSize s.heap.fallbackAllocator.regions := by
  obtain ⟨hsize', halign'⟩ := carvedLayout_limits hsize halign
  rw [hblock, fallbackAlloc]
  rcases allocate_exact (regions_within hs) hsize' halign' with ⟨hok, hnone⟩ |
    ⟨region, fallback, hsome, hok, htotal⟩
  · left
    rw [hok]
    exact ⟨rfl, hnone⟩
  · right
    rw [hok]
    exact ⟨region, fallback, hsome, rfl, htotal⟩

/-! ## Bytes -/

theorem heapBytes_cons (heap : FixedSizeBlockAllocator) (a : Nat × Layout)
    (live : List (Nat × Layout)) :
    heapBytes ⟨heap, a :: live⟩ = (carved a).size + heapBytes ⟨heap, live⟩ := by
  rw [heapBytes, totalSize_perm (spans_cons heap a live), totalSize_cons, heapBytes]

theorem heapBytes_eq (s : HeapRun) : heapBytes s = totalSize s.heap.fallbackAllocator.regions +
    totalSize (blockSpans s.heap.listHeads ++ s.live.map carved) := by
  rw [heapBytes, spans, totalSize_append]

theorem alloc_bytes {s : HeapRun} (hs : HeapInv s) {layout : Layout} {ptr : Nat}
    {heap : FixedSizeBlockAllocator} (halign : layout.align ≤ 2 ^ 29)
    (h : s.heap.alloc layout = .ok (ptr, heap)) :
    heapBytes ⟨heap, if ptr ≠ 0 then (ptr, layout) :: s.live else s.live⟩ ≤ heapBytes s ∧
    (heapBytes ⟨heap, if ptr ≠ 0 then (ptr, layout) :: s.live else s.live⟩ = heapBytes s ↔
      DropsNothing s (.alloc layout)) := by
  rcases alloc_cases s layout with ⟨i, node, next, hi, hl, hok⟩ | ⟨hblock, hok⟩
  · rw [hok] at h
    cases h
    rw [if_pos (block_ne_zero hs hl)]
    have hsame := totalSize_perm (spans_take_block hi hl)
    exact ⟨Nat.le_of_eq hsame.symm, fun _ => .inl ⟨i, hi, by rw [hl]; exact List.cons_ne_nil _ _⟩,
      fun _ => hsame.symm⟩
  · rcases alloc_regions hs hok (size_limit_of_alloc h) (halign.trans (by decide)) with
      ⟨hnull, hnone⟩ | ⟨region, fallback, hsome, hptr, htotal⟩
    · rw [hnull] at h
      cases h
      rw [if_neg (fun hne => hne rfl)]
      refine ⟨Nat.le_refl _, fun _ => .inr fun region hregion => ?_, fun _ => rfl⟩
      rw [hnone] at hregion
      cases hregion
    · rw [hptr] at h
      cases h
      have hbytes : heapBytes ⟨{ s.heap with fallbackAllocator := fallback }, s.live⟩ =
          totalSize fallback.regions + totalSize (blockSpans s.heap.listHeads ++ s.live.map carved) :=
        heapBytes_eq _
      have hpos : 0 < max (carvedLayout layout).align nodeAlign :=
        Nat.lt_of_lt_of_le (by decide) (Nat.le_max_right _ nodeAlign)
      have hle := @le_firstMultiple region.start _ hpos
      have hgap := @firstMultiple_eq_iff region.start _ hpos
      rw [if_pos (firstMultiple_ne_zero hs hsome), heapBytes_cons, hbytes, heapBytes_eq s]
      have hcond : DropsNothing s (.alloc layout) ↔
          max (carvedLayout layout).align nodeAlign ∣ region.start := by
        constructor
        · rintro (hhas | hall)
          · exact absurd hhas hblock
          · exact hall region hsome
        · intro hdvd
          refine .inr fun region' hregion' => ?_
          rw [hsome] at hregion'
          cases hregion'
          exact hdvd
      rw [hcond, ← hgap, carved]
      dsimp only
      omega

theorem heapStep_bytes {s s' : HeapRun} {e : HeapEvent} (hs : HeapInv s)
    (h : heapStep s e = some s') :
    heapBytes s' ≤ heapBytes s ∧ (heapBytes s' = heapBytes s ↔ DropsNothing s e) := by
  obtain ⟨hstep, hlayout⟩ := allocatorStep_of_heapStep h
  rcases allocatorStep_cases hstep with ⟨layout, ptr, heap, rfl, halloc, rfl⟩ |
    ⟨ptr, layout, heap, rfl, hlive, hfree, rfl⟩
  · exact alloc_bytes hs (hlayout layout rfl) halloc
  · have hsame := totalSize_perm (spans_dealloc hlive hfree)
    exact ⟨Nat.le_of_eq hsame.symm, fun _ => trivial, fun _ => hsame.symm⟩

theorem heapBytes_init {heap : FixedSizeBlockAllocator}
    (h : FixedSizeBlockAllocator.new.init heapStart heapSize = .ok heap) :
    heapBytes ⟨heap, []⟩ = heapSize := by
  have hok : FixedSizeBlockAllocator.new.init heapStart heapSize =
      .ok ⟨fun _ => [], ⟨[heapSpan]⟩⟩ := rfl
  rw [hok] at h
  cases h
  rfl

end HeapLemmas

/-- The regions, the free blocks and the live allocations make up the whole heap at the end of a run
exactly if no allocation of the run has left a gap in front of it. -/
theorem heap_bytes_conserved_iff {heap : FixedSizeBlockAllocator} {es : List HeapEvent} {s : HeapRun}
    (hinit : FixedSizeBlockAllocator.new.init heapStart heapSize = .ok heap)
    (hrun : run heapStep ⟨heap, []⟩ es = some s) :
    heapBytes s = heapSize ↔ AllSteps heapStep DropsNothing ⟨heap, []⟩ es := by
  rw [← heapBytes_init hinit]
  exact (run_conserves (fun _ _ _ => heapStep_inv) (fun _ _ _ => heapStep_bytes) (init_inv hinit)
    hrun).2

theorem page_pow_two : ∃ k, k ≤ 63 ∧ 4096 = 2 ^ k := ⟨12, by decide, by decide⟩

theorem page_fits : 4000 + 4096 ≤ isizeMax + 1 := by decide

/-- A layout of 4000 bytes, at a multiple of 4096. -/
def pageLayout : Layout := ⟨4000, 4096, page_pow_two, page_fits⟩

/-- The page is the first allocation, so it starts where the heap does. -/
theorem heap_bytes_conserved_sample : ∃ heap s,
    FixedSizeBlockAllocator.new.init heapStart heapSize = .ok heap ∧
    run heapStep ⟨heap, []⟩ [.alloc pageLayout, .alloc sampleLayout, .dealloc heapStart pageLayout] =
      some s ∧ heapBytes s = heapSize := by
  have hruns : (run heapStep ⟨⟨fun _ => [], ⟨[heapSpan]⟩⟩, []⟩
      [.alloc pageLayout, .alloc sampleLayout, .dealloc heapStart pageLayout]).isSome := by
    decide +kernel
  obtain ⟨s, hrun⟩ := Option.isSome_iff_exists.mp hruns
  exact ⟨_, s, rfl, hrun, (heap_bytes_conserved_iff rfl hrun).mpr (by decide +kernel)⟩

/-- The first allocation is a block of 32 bytes, so the second one, at the next multiple of 4096, leaves
4064 bytes between them that no list has. -/
theorem aligned_allocation_drops_gap : ∃ heap s,
    FixedSizeBlockAllocator.new.init heapStart heapSize = .ok heap ∧
    run heapStep ⟨heap, []⟩ [.alloc sampleLayout, .alloc pageLayout] = some s ∧
    heapBytes s + 4064 = heapSize := by
  have hbytes : (run heapStep ⟨⟨fun _ => [], ⟨[heapSpan]⟩⟩, []⟩
      [.alloc sampleLayout, .alloc pageLayout]).map (fun s => heapBytes s + 4064) = some heapSize := by
    decide +kernel
  obtain ⟨s, hrun, hbytes⟩ := Option.map_eq_some_iff.mp hbytes
  exact ⟨_, s, rfl, hrun, hbytes⟩

/-! ## Addresses -/

namespace HeapLemmas

open LinkedListAllocator FixedSizeBlockAllocator

theorem alloc_inside {s : HeapRun} (hs : HeapInv s) {layout : Layout} {ptr : Nat}
    {heap : FixedSizeBlockAllocator} (h : s.heap.alloc layout = .ok (ptr, heap)) (hne : ptr ≠ 0) :
    (usable (ptr, layout)).Within heapSpan := by
  have hinv := alloc_inv hs h
  rw [if_pos hne] at hinv
  exact (contract_of_inv hinv).inside (ptr, layout) List.mem_cons_self

theorem allocate_nil {layout : Layout}
    (hsize : layout.size + max layout.align nodeAlign ≤ isizeMax + 1) :
    allocate ⟨[]⟩ layout = .ok (0, ⟨[]⟩) := by
  rw [allocate, sizeAlign_ok hsize]
  rfl

/-- Without a free block the region list decides, and it answers. -/
theorem alloc_without_block {s : HeapRun} (hs : HeapInv s) {layout : Layout}
    (hblock : s.heap.alloc layout = s.heap.fallbackAlloc (carvedLayout layout))
    (hsize : layout.size + max layout.align nodeAlign ≤ isizeMax + 1)
    (halign : s.heap.fallbackAllocator.regions = [] ∨ layout.align ≤ 2 ^ 46) :
    ∃ ptr heap, s.heap.alloc layout = .ok (ptr, heap) ∧ (ptr = 0 ↔ s.firstRoom layout = none) := by
  by_cases hle : layout.align ≤ 2 ^ 46
  · rcases alloc_regions hs hblock hsize hle with ⟨hok, hnone⟩ | ⟨region, fallback, hsome, hok, -⟩
    · exact ⟨0, s.heap, hok, fun _ => hnone, fun _ => rfl⟩
    · refine ⟨_, _, hok, fun hzero => absurd hzero (firstMultiple_ne_zero hs hsome), fun hnone => ?_⟩
      rw [hnone] at hsome
      cases hsome
  · have hnil := halign.resolve_right hle
    have hfallback : s.heap.fallbackAllocator = ⟨[]⟩ := by rw [← hnil]
    rcases carvedLayout_cases layout with ⟨heq, -⟩ | ⟨i, -, hi⟩
    · refine ⟨0, { s.heap with fallbackAllocator := ⟨[]⟩ }, ?_, ?_⟩
      · rw [hblock, heq, fallbackAlloc, hfallback, allocate_nil hsize]
        rfl
      · rw [HeapRun.firstRoom, hnil]
        exact ⟨fun _ => rfl, fun _ => rfl⟩
    · exact absurd (limits_of_index hi).2 hle

end HeapLemmas

/-- In every state that calls with any layouts lead to, `alloc` answers a request exactly if the size can be
aligned to a list node and, unless the region list is empty, the alignment is at most `2 ^ 46`. With a
larger one `align_up` overflows at the first region it looks at, whether or not the region has room. -/
theorem alloc_answers_iff {heap : FixedSizeBlockAllocator} {es : List HeapEvent} {s : HeapRun}
    (hinit : FixedSizeBlockAllocator.new.init heapStart heapSize = .ok heap)
    (hrun : run allocatorStep ⟨heap, []⟩ es = some s) (layout : Layout) :
    Answers s layout ↔ layout.size + max layout.align nodeAlign ≤ isizeMax + 1 ∧
      (s.heap.fallbackAllocator.regions = [] ∨ layout.align ≤ 2 ^ 46) := by
  have hs : HeapInv s := run_invariant (fun _ _ _ => allocatorStep_inv) (init_inv hinit) hrun
  constructor
  · rintro ⟨ptr, heap', hok, -, -⟩
    refine ⟨size_limit_of_alloc hok, ?_⟩
    by_contra hover
    obtain ⟨hne, halign⟩ := not_or.mp hover
    rcases carvedLayout_cases layout with ⟨heq, hi⟩ | ⟨i, -, hi⟩
    · rcases alloc_cases s layout with ⟨i, node, next, hi', -, -⟩ | ⟨-, hfallback⟩
      · rw [hi] at hi'
        cases hi'
      · obtain ⟨p, hp⟩ := allocate_overflow (regions_within hs) hne halign
        rw [hfallback, heq, FixedSizeBlockAllocator.fallbackAlloc, hp] at hok
        cases hok
    · exact halign (limits_of_index hi).2
  · rintro ⟨hsize, halign⟩
    rcases alloc_cases s layout with ⟨i, node, next, hi, hl, hok⟩ | ⟨hblock, hfallback⟩
    · have hhas : s.HasBlock layout := ⟨i, hi, by rw [hl]; exact List.cons_ne_nil _ _⟩
      exact ⟨node, _, hok, ⟨fun hzero => absurd hzero (block_ne_zero hs hl), fun h => absurd hhas h.1⟩,
        alloc_inside hs hok⟩
    · obtain ⟨ptr, heap', hok, hnull⟩ := alloc_without_block hs hfallback hsize halign
      exact ⟨ptr, heap', hok, ⟨fun hzero => ⟨hblock, hnull.mp hzero⟩, fun h => hnull.mpr h.2⟩,
        alloc_inside hs hok⟩

/-- A page is found behind a block. -/
theorem alloc_answers_sample : ∃ heap s,
    FixedSizeBlockAllocator.new.init heapStart heapSize = .ok heap ∧
    run allocatorStep ⟨heap, []⟩ [.alloc sampleLayout] = some s ∧ Answers s pageLayout := by
  have hruns : (run allocatorStep ⟨⟨fun _ => [], ⟨[heapSpan]⟩⟩, []⟩ [.alloc sampleLayout]).isSome := by
    decide +kernel
  obtain ⟨s, hrun⟩ := Option.isSome_iff_exists.mp hruns
  exact ⟨_, s, rfl, hrun, (alloc_answers_iff rfl hrun pageLayout).mpr ⟨by decide, .inr (by decide)⟩⟩

/-- One byte at a multiple of `2 ^ 47`: the fresh heap cannot hold it, and `alloc` panics instead of
saying so. -/
theorem large_alignment_overflows : ∃ heap,
    FixedSizeBlockAllocator.new.init heapStart heapSize = .ok heap ∧
    (heap.alloc ⟨1, 2 ^ 47, ⟨47, by decide, rfl⟩, by decide⟩).map Prod.fst =
      .error ⟨"attempt to add with overflow"⟩ :=
  ⟨⟨fun _ => [], ⟨[heapSpan]⟩⟩, rfl, by decide +kernel⟩

end Turnix
