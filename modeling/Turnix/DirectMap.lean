import Turnix.FrameCoverage
import Turnix.Lib.PageGrowth
import Turnix.Paging

/-!
# The map of all physical memory

The kernel reaches a frame by adding `PHYSICAL_MEMORY_OFFSET` to its address. ADR 0001 says that all
physical memory is mapped there; `setup_mappings` of the loader maps the first 4 GiB, in large pages, and
the frame allocator does not know of that limit. `Built` describes the tables that the loop of the loader
leaves behind: an address below the limit hits its frame, and one above it faults.
`frames_in_direct_map_iff`: every frame is reachable exactly if all usable memory is below the limit.
-/

namespace Turnix

open Lib Lib.Paging PanicM FrameLemmas

/-! ## `setup_mappings` -/

/-- `PHYSICAL_MEMORY_OFFSET`. -/
def physicalMemoryOffset : Nat := 0xFFFF800000000000

/-- The flags of the entries above a large page. -/
def linkFlags : Flags := Flags.present.union .writable

/-- The flags of a large page. -/
def hugeFlags : Flags := linkFlags.union .huge

/-- "Ensure PDPT exists" and "Ensure PD exists". -/
def ensureTable (t : Frame) (i : Fin 512) : PanicM PhysMem Unit := do
  let s ← PanicM.get
  if s.ram t i = .unused then
    let newFrame ← PanicM.expect (← allocateFrame)
    setEntry t i ⟨linkFlags, newFrame⟩
    setTable newFrame fun _ => .unused
  else pure ()

/-- `entry.frame().unwrap()`. -/
def entryFrame (e : Entry) : PanicM PhysMem Frame := do
  PanicM.ensure (e.flags.isPresent && !e.flags.isHuge)
  return e.frame

/-- The entry of a large page, from the table of level 2 on. -/
def setLargePage (pdpt : Frame) (pdptIdx pdIdx : Fin 512) (e : Entry) : PanicM PhysMem Unit := do
  ensureTable pdpt pdptIdx
  let s ← PanicM.get
  let pd ← entryFrame (s.ram pdpt pdptIdx)
  setEntry pd pdIdx e

/-- The body of the last loop of `setup_mappings`. The frames are those of the scratchpad. -/
def mapLargePage (pml4 : Frame) (i : Nat) : PanicM PhysMem Unit := do
  let addr ← virtAddr (physicalMemoryOffset + i * 2 * 1024 * 1024)
  let page := addr / 4096
  ensureTable pml4 (index 3 page)
  let s ← PanicM.get
  let pdpt ← entryFrame (s.ram pml4 (index 3 page))
  setLargePage pdpt (index 2 page) (index 1 page)
    ⟨hugeFlags, BitVec.ofNat 40 (i * 2 * 1024 * 1024 / 4096)⟩

/-- The last loop of `setup_mappings`. -/
@[irreducible]
def mapPhysicalMemory (pml4 : Frame) : PanicM PhysMem Unit :=
  PanicM.forRange (mapLargePage pml4) (4096 / 2) 0

/-- The page through which the kernel accesses a frame. -/
def directPage (n : Nat) : Nat := (physicalMemoryOffset + n * 4096) / 4096

/-- The first pages of `count` large pages, from the start of the direct map on. -/
def largePages (count : Nat) : Finset Nat := (Finset.range count).image fun i => directPage (i * 512)

namespace DirectMapLemmas

theorem index_directPage {n : Nat} (h : n < 2 ^ 27) :
    index 3 (directPage n) = 256 ∧ index 2 (directPage n) = Fin.ofNat 512 (n / 512 / 512) ∧
      index 1 (directPage n) = Fin.ofNat 512 (n / 512) := by
  unfold index directPage physicalMemoryOffset
  refine ⟨Fin.ext ?_, Fin.ext ?_, Fin.ext ?_⟩
  · show (0xFFFF800000000000 + n * 4096) / 4096 / 512 ^ 3 % 512 = 256
    omega
  · show (0xFFFF800000000000 + n * 4096) / 4096 / 512 ^ 2 % 512 = n / 512 / 512 % 512
    omega
  · show (0xFFFF800000000000 + n * 4096) / 4096 / 512 ^ 1 % 512 = n / 512 % 512
    omega

/-- The tables of the direct map, after `c` page directories were linked and `i` large pages mapped. -/
structure Built (pml4 pdpt : Frame) (pd : Nat → Frame) (c i : Nat) (s : PhysMem) : Prop where
  root : s.ram pml4 256 = ⟨linkFlags, pdpt⟩
  linked : ∀ j < c, s.ram pdpt (Fin.ofNat 512 j) = ⟨linkFlags, pd j⟩
  unlinked : ∀ j < 512, c ≤ j → s.ram pdpt (Fin.ofNat 512 j) = .unused
  leaves : ∀ k < i, s.ram (pd (k / 512)) (Fin.ofNat 512 k) = ⟨hugeFlags, BitVec.ofNat 40 (k * 512)⟩
  apart : pdpt ≠ pml4 ∧ ∀ j < c, pd j ≠ pml4 ∧ pd j ≠ pdpt
  injective : ∀ j < c, ∀ k < c, pd j = pd k → j = k
  fresh : ∀ f ∈ s.frames, f ≠ pml4 ∧ f ≠ pdpt ∧ ∀ j < c, f ≠ pd j
  nodup : s.frames.Nodup
  filled : i ≤ 512 * c
  left : 4 ≤ c + s.frames.length

variable {pml4 pdpt : Frame} {pd : Nat → Frame} {c i : Nat} {s : PhysMem} {E : PhysMem → Prop}

theorem linkFlags_isPresent : linkFlags.isPresent = true := by decide

theorem linkFlags_isHuge : linkFlags.isHuge = false := by decide

theorem linkFlags_rights : linkFlags.isWritable = true ∧ linkFlags.isUser = false := by decide

theorem hugeFlags_isPresent : hugeFlags.isPresent = true := by decide

theorem hugeFlags_isHuge : hugeFlags.isHuge = true := by decide

theorem hugeFlags_rights : hugeFlags.isWritable = true ∧ hugeFlags.isUser = false := by decide

theorem ends_entryFrame {e : Entry} (hp : e.flags.isPresent = true) (hh : e.flags.isHuge = false)
    {Q : Frame → PhysMem → Prop} : Ends (entryFrame e) s Q E ↔ Q e.frame s := by
  unfold entryFrame
  rw [hp, hh]
  exact Iff.rfl

theorem ends_ensureTable {t : Frame} {j : Fin 512} {Q : Unit → PhysMem → Prop} :
    Ends (ensureTable t j) s Q E ↔
      (s.ram t j ≠ .unused → Q () s) ∧ (s.ram t j = .unused → (s.frames = [] → E s) ∧
        ∀ f frames, s.frames = f :: frames → Q () { s with
          ram := (s.ram.set t j ⟨linkFlags, f⟩).setTable f fun _ => .unused
          frames := frames
          writes := s.writes ++ [entrySpan t j] ++ [frameSpan f] }) := by
  unfold ensureTable
  rw [ends_bind, ends_get]
  by_cases hfree : s.ram t j = .unused
  · rw [if_pos hfree, ends_expect_allocateFrame]
    exact ⟨fun h => ⟨fun hne => absurd hfree hne, fun _ => h⟩, fun h => h.2 hfree⟩
  · rw [if_neg hfree, ends_pure]
    exact ⟨fun h => ⟨fun _ => h, fun hfree' => absurd hfree' hfree⟩, fun h => h.1 hfree⟩

/-! ### The loop -/

theorem position_directPage {n : Nat} (h : n < 2 ^ 27) :
    position 3 (directPage n) = 256 ∧ position 2 (directPage n) = 2 ^ 17 + n / 512 / 512 ∧
      position 1 (directPage n) = 2 ^ 26 + n / 512 := by
  unfold position directPage physicalMemoryOffset
  omega

theorem largePages_succ (count : Nat) :
    largePages (count + 1) = insert (directPage (count * 512)) (largePages count) := by
  unfold largePages
  rw [Finset.range_add_one, Finset.image_insert]

theorem largePages_mono {m n : Nat} (h : m ≤ n) : largePages m ⊆ largePages n :=
  Finset.image_subset_image (Finset.range_subset_range.mpr h)

/-- The direct map can be built below the PML4, beside the pages in `small`. -/
structure DirectPlot (g : Plot) (pml4 : Frame) (small : Finset Nat) : Prop where
  root : g.root = pml4
  slot : g.slots 256
  links : g.links linkFlags
  leaf : ∀ i < 2048, g.leaf 1 (2 ^ 26 + i) = ⟨hugeFlags, BitVec.ofNat 40 (i * 512)⟩
  apart : ∀ page ∈ small, ∀ i < 2048, position 1 page ≠ 2 ^ 26 + i

variable {g : Plot} {a : Growth} {small : Finset Nat}

/-- `ensureTable` makes a link, if there is none and there is a frame. -/
theorem grown_ensureTable {l p : Nat} (h : Grown g a s.ram s.frames) (hl : l < 3)
    (hhas : a.Has g (l + 1) p) (hleaf : p ∉ a.leaves (l + 1)) (hlinks : g.links linkFlags) :
    Ends (ensureTable (a.table (l + 1) (p / 512)) (Fin.ofNat 512 p)) s
      (fun _ s' => ∃ a', Grown g a' s'.ram s'.frames ∧ a'.table (l + 1) = a.table (l + 1) ∧
        a'.linked = Function.update a.linked (l + 1) (insert p (a.linked (l + 1))) ∧
        a'.leaves = a.leaves)
      (fun s' => s'.frames = [] ∧ g.frames.length <
        linkCount (Function.update a.linked (l + 1) (insert p (a.linked (l + 1))))) := by
  rw [ends_ensureTable]
  refine ⟨fun hused => ?_, fun hfree => ?_⟩
  · have hlinked := h.linked_of_used hhas hleaf hused
    exact ⟨a, h, rfl, by rw [Finset.insert_eq_of_mem hlinked, Function.update_eq_self], rfl⟩
  have hlinked : p ∉ a.linked (l + 1) := fun hin => h.entry_ne_unused hin hfree
  refine ⟨fun hempty => ⟨hempty, ?_⟩, fun f frames hs => ?_⟩
  · rw [h.frames_length, hempty, linkCount_insert hl hlinked]
    exact Nat.lt_succ_self _
  · rw [hs] at h
    exact ⟨a.link l p f, h.create hl hhas hlinked hleaf hlinks rfl,
      funext fun k => table_link_of_ne fun heq => Nat.succ_ne_self l heq.1, rfl, rfl⟩

/-- One turn, with the indices of its page. -/
theorem ends_mapLargePage (hi : i < 2048) {Q : Unit → PhysMem → Prop} :
    Ends (mapLargePage pml4 i) s Q E ↔ Ends (ensureTable pml4 256) s (fun _ s' =>
      Ends (entryFrame (s'.ram pml4 256)) s' (fun pdpt s'' =>
        Ends (setLargePage pdpt (Fin.ofNat 512 (i / 512)) (Fin.ofNat 512 i)
          ⟨hugeFlags, BitVec.ofNat 40 (i * 512)⟩) s'' Q E) E) E := by
  have hpage : (physicalMemoryOffset + i * 2 * 1024 * 1024) / 4096 = directPage (i * 512) := by
    unfold directPage
    omega
  have hcanonical : canonical (physicalMemoryOffset + i * 2 * 1024 * 1024) = true := by
    unfold canonical physicalMemoryOffset
    rw [decide_eq_true_iff]
    omega
  obtain ⟨h3, h2, h1⟩ := index_directPage (n := i * 512) (by omega)
  rw [Nat.mul_div_cancel _ (by decide)] at h2 h1
  have hframe : i * 2 * 1024 * 1024 / 4096 = i * 512 := by omega
  unfold mapLargePage
  rw [ends_bind, ends_virtAddr, and_iff_left fun h => absurd (hcanonical.symm.trans h) (by decide)]
  simp only [hcanonical, true_imp_iff, hpage, h3, h2, h1, hframe, ends_bind, ends_get]

/-- A link is followed. -/
theorem ends_follow {l p : Nat} (h : Grown g a s.ram s.frames) (hp : p ∈ a.linked (l + 1))
    {Q : Frame → PhysMem → Prop} :
    Ends (entryFrame (s.ram (a.table (l + 1) (p / 512)) (Fin.ofNat 512 p))) s Q E ↔ Q (a.table l p) s := by
  obtain ⟨hflags, hframe⟩ := h.link l p hp
  obtain ⟨hpresent, hhuge⟩ := g.present _ hflags
  rw [← hframe]
  exact ends_entryFrame hpresent hhuge

/-- The large page is set in its page directory. -/
theorem largeLeaf_maps (hg : DirectPlot g pml4 small) (hi : i < 2048) {ram : Ram} {frames : List Frame}
    (h : Grown g a ram frames) (hlinked : a.linked = pageLinks small (largePages (i + 1)))
    (hleaves : a.leaves = pageLeaves small (largePages i)) :
    MapsPages g small (largePages (i + 1)) (ram.set (a.table 1 (2 ^ 17 + i / 512)) (Fin.ofNat 512 i)
      ⟨hugeFlags, BitVec.ofNat 40 (i * 512)⟩) frames := by
  obtain ⟨h3, h2, h1⟩ := position_directPage (n := i * 512) (by omega)
  rw [Nat.mul_div_cancel _ (by decide)] at h2 h1
  have hdiv : (2 ^ 26 + i) / 512 = 2 ^ 17 + i / 512 := by omega
  have hindex : Fin.ofNat 512 (2 ^ 26 + i) = Fin.ofNat 512 i := Fin.ext (by
    show (2 ^ 26 + i) % 512 = i % 512
    omega)
  have hhas : a.Has g 1 (2 ^ 26 + i) := by
    refine .inr ⟨by decide, ?_⟩
    rw [hdiv, hlinked, ← h2]
    refine Finset.mem_image_of_mem _ (Finset.mem_union_right _ ?_)
    rw [largePages_succ]
    exact Finset.mem_insert_self _ _
  have hfree : 2 ^ 26 + i ∉ a.linked 1 := by
    rw [hlinked]
    intro hin
    obtain ⟨page, hpage, heq⟩ := Finset.mem_image.mp hin
    exact hg.apart page hpage i hi heq
  have hadded := h.addLeaf hhas hfree
  rw [hdiv, hindex, hg.leaf i hi] at hadded
  refine ⟨_, hadded, hlinked, funext fun l => ?_⟩
  show Function.update a.leaves 1 (insert (2 ^ 26 + i) (a.leaves 1)) l = _
  rw [hleaves]
  by_cases hl : l = 1
  · subst hl
    rw [Function.update_self, largePages_succ, ← h1]
    exact (Finset.image_insert _ _ _).symm
  · rw [Function.update_of_ne hl]
    unfold pageLeaves
    rw [if_neg hl, if_neg hl]

/-- One turn below the table of level 2. -/
theorem setLargePage_maps (hg : DirectPlot g pml4 small) (hi : i < 2048) (h : Grown g a s.ram s.frames)
    (hlinked : a.linked = Function.update (pageLinks small (largePages i)) 3
      (insert 256 (pageLinks small (largePages i) 3)))
    (hleaves : a.leaves = pageLeaves small (largePages i)) :
    Ends (setLargePage (a.table 2 256) (Fin.ofNat 512 (i / 512)) (Fin.ofNat 512 i)
        ⟨hugeFlags, BitVec.ofNat 40 (i * 512)⟩) s
      (fun _ s' => MapsPages g small (largePages (i + 1)) s'.ram s'.frames)
      (fun s' => s'.frames = [] ∧ g.frames.length < linkCount (pageLinks small (largePages (i + 1)))) := by
  obtain ⟨h3, h2, h1⟩ := position_directPage (n := i * 512) (by omega)
  rw [Nat.mul_div_cancel _ (by decide)] at h2
  have hdiv : (2 ^ 17 + i / 512) / 512 = 256 := by omega
  have hindex : Fin.ofNat 512 (2 ^ 17 + i / 512) = Fin.ofNat 512 (i / 512) := Fin.ext (by
    show (2 ^ 17 + i / 512) % 512 = i / 512 % 512
    omega)
  have hinsert : Function.update a.linked 2 (insert (2 ^ 17 + i / 512) (a.linked 2)) =
      pageLinks small (largePages (i + 1)) := by
    rw [largePages_succ, ← pageLinks_insert_large, h3, h2, hlinked, Function.update_of_ne (by decide)]
  have hhas : a.Has g 2 (2 ^ 17 + i / 512) := by
    refine .inr ⟨by decide, ?_⟩
    rw [hdiv, hlinked, Function.update_self]
    exact Finset.mem_insert_self _ _
  have hnoleaf : 2 ^ 17 + i / 512 ∉ a.leaves 2 := by
    rw [hleaves]
    exact Finset.notMem_empty _
  have hensure := grown_ensureTable h (by decide) hhas hnoleaf hg.links
  rw [hinsert, hdiv, hindex] at hensure
  unfold setLargePage
  rw [ends_bind]
  refine hensure.mono (fun _ s' hs' => ?_) fun _ h => h
  obtain ⟨a', h', htable, hlinked', hleaves'⟩ := hs'
  have hpd : 2 ^ 17 + i / 512 ∈ a'.linked 2 := by
    rw [hlinked', ← hinsert, Function.update_self]
    exact Finset.mem_insert_self _ _
  have hpdpt : a.table 2 256 = a'.table 2 ((2 ^ 17 + i / 512) / 512) := by rw [hdiv, htable]
  rw [ends_bind, ends_get, ends_bind, hpdpt, ← hindex, ends_follow h' hpd, ends_setEntry]
  exact largeLeaf_maps hg hi h' hlinked' (hleaves'.trans hleaves)

theorem mapLargePage_maps (hg : DirectPlot g pml4 small) (hi : i < 2048)
    (h : MapsPages g small (largePages i) s.ram s.frames) :
    Ends (mapLargePage pml4 i) s (fun _ s' => MapsPages g small (largePages (i + 1)) s'.ram s'.frames)
      (fun s' => s'.frames = [] ∧ g.frames.length < linkCount (pageLinks small (largePages 2048))) := by
  obtain ⟨a, h, hlinked, hleaves⟩ := h
  have hmono : linkCount (pageLinks small (largePages (i + 1))) ≤
      linkCount (pageLinks small (largePages 2048)) :=
    pageLinks_mono (Finset.Subset.refl _) (largePages_mono hi)
  have hslots := hg.slot
  have hhas : a.Has g 3 256 := .inl ⟨rfl, by decide, hslots⟩
  have hnoleaf : 256 ∉ a.leaves 3 := by
    rw [hleaves]
    exact Finset.notMem_empty _
  have hensure := grown_ensureTable h (by decide) hhas hnoleaf hg.links
  rw [h.root, hg.root] at hensure
  rw [ends_mapLargePage hi]
  refine hensure.mono (fun _ s' hs' => ?_) fun s' hs' => ?_
  · obtain ⟨a', h', -, hlinked', hleaves'⟩ := hs'
    have hroot : 256 ∈ a'.linked 3 := by
      rw [hlinked', Function.update_self]
      exact Finset.mem_insert_self _ _
    rw [← hg.root, ← h'.root 0]
    refine (ends_follow h' hroot).mpr ?_
    rw [hlinked] at hlinked'
    refine (setLargePage_maps hg hi h' hlinked' (hleaves'.trans hleaves)).mono (fun _ _ h => h) ?_
    exact fun s'' hs'' => ⟨hs''.1, hs''.2.trans_le hmono⟩
  · refine ⟨hs'.1, hs'.2.trans_le (le_trans ?_ hmono)⟩
    obtain ⟨h3, h2, h1⟩ := position_directPage (n := i * 512) (by omega)
    rw [hlinked, largePages_succ, ← pageLinks_insert_large, h3]
    refine linkCount_mono fun l => ?_
    by_cases hl : l = 2
    · subst hl
      rw [Function.update_self]
      exact Finset.subset_insert _ _
    · rw [Function.update_of_ne (a := l) hl]

/-- The whole loop. -/
theorem mapPhysicalMemory_maps (hg : DirectPlot g pml4 small) (h : MapsPages g small ∅ s.ram s.frames) :
    Ends (mapPhysicalMemory pml4) s
      (fun _ s' => MapsPages g small (largePages 2048) s'.ram s'.frames)
      (fun s' => s'.frames = [] ∧ g.frames.length < linkCount (pageLinks small (largePages 2048))) := by
  unfold mapPhysicalMemory
  have hloop := @ends_forRange _ (mapLargePage pml4)
    (fun i s' => MapsPages g small (largePages i) s'.ram s'.frames)
    (fun s' => s'.frames = [] ∧ g.frames.length < linkCount (pageLinks small (largePages 2048)))
    (4096 / 2) 0 s h
  exact hloop fun i s' _ hi hs' => mapLargePage_maps hg (by omega) hs'

/-! ### What the loop leaves -/

theorem mem_directLinks {q : Nat} :
    (q ∈ pageLinks ∅ (largePages 2048) 3 ↔ q = 256) ∧
      (q ∈ pageLinks ∅ (largePages 2048) 2 ↔ 2 ^ 17 ≤ q ∧ q < 2 ^ 17 + 4) ∧
      (q ∈ pageLeaves ∅ (largePages 2048) 1 ↔ 2 ^ 26 ≤ q ∧ q < 2 ^ 26 + 2048) := by
  have hpos : ∀ {i}, i < 2048 → position 3 (directPage (i * 512)) = 256 ∧
      position 2 (directPage (i * 512)) = 2 ^ 17 + i / 512 ∧
      position 1 (directPage (i * 512)) = 2 ^ 26 + i := by
    intro i hi
    have hdirect := position_directPage (n := i * 512) (by omega)
    rwa [Nat.mul_div_cancel _ (by decide)] at hdirect
  have hmem : ∀ l, (q ∈ (∅ ∪ largePages 2048).image (position l) ↔
      ∃ i < 2048, position l (directPage (i * 512)) = q) := by
    intro l
    unfold largePages
    simp only [Finset.empty_union, Finset.mem_image, Finset.mem_range, exists_exists_and_eq_and]
  refine ⟨(hmem 3).trans ⟨?_, ?_⟩, (hmem 2).trans ⟨?_, ?_⟩, ?_⟩
  · rintro ⟨i, hi, rfl⟩
    exact (hpos hi).1
  · rintro rfl
    exact ⟨0, by decide, (hpos (by decide)).1⟩
  · rintro ⟨i, hi, rfl⟩
    rw [(hpos hi).2.1]
    omega
  · rintro ⟨hge, hlt⟩
    refine ⟨(q - 2 ^ 17) * 512, by omega, ?_⟩
    rw [(hpos (by omega)).2.1]
    omega
  · rw [← Finset.empty_union (largePages 2048)]
    refine (hmem 1).trans ⟨?_, ?_⟩
    · rintro ⟨i, hi, rfl⟩
      rw [(hpos hi).2.2]
      omega
    · rintro ⟨hge, hlt⟩
      refine ⟨q - 2 ^ 26, by omega, ?_⟩
      rw [(hpos (by omega)).2.2]
      omega

/-- The entries of the tables of the direct map alone. -/
theorem built_of_maps (hg : DirectPlot g pml4 ∅) (hlinks : ∀ flags, g.links flags → flags = linkFlags)
    (h : MapsPages g ∅ (largePages 2048) s.ram s.frames) : ∃ pdpt pd, Built pml4 pdpt pd 4 2048 s := by
  obtain ⟨a, h, hlinked, hleaves⟩ := h
  have hlink : ∀ {l p}, p ∈ a.linked (l + 1) →
      s.ram (a.table (l + 1) (p / 512)) (Fin.ofNat 512 p) = ⟨linkFlags, a.table l p⟩ := by
    intro l p hp
    obtain ⟨hflags, hframe⟩ := h.link l p hp
    exact Entry.ext (hlinks _ hflags) hframe
  have hroot : 256 ∈ a.linked 3 := by
    rw [hlinked]
    exact mem_directLinks.1.mpr rfl
  have hpd : ∀ j, 2 ^ 17 + j ∈ a.linked 2 ↔ j < 4 := by
    intro j
    rw [hlinked, mem_directLinks.2.1]
    omega
  have hhas3 := (h.linked_has _ _ hroot).2
  have hhas2 : ∀ j < 512, a.Has g 2 (2 ^ 17 + j) := by
    intro j hj
    refine .inr ⟨by decide, ?_⟩
    rwa [show (2 ^ 17 + j) / 512 = 256 by omega]
  have hhas1 : ∀ j < 4, a.Has g 1 ((2 ^ 17 + j) * 512) := by
    intro j hj
    refine .inr ⟨by decide, ?_⟩
    rw [Nat.mul_div_cancel _ (by decide)]
    exact (hpd j).mpr hj
  have hindex : ∀ j, Fin.ofNat 512 (2 ^ 17 + j) = Fin.ofNat 512 j := fun j => Fin.ext (by
    show (2 ^ 17 + j) % 512 = j % 512
    omega)
  -- the tables of the three levels, by one entry of each
  have htable3 : a.table 3 (256 / 512) = pml4 := (h.root _).trans hg.root
  have htable2 : ∀ j < 512, a.table 2 ((2 ^ 17 + j) / 512) = a.table 2 256 := fun j hj => by
    rw [show (2 ^ 17 + j) / 512 = 256 by omega]
  have htable1 : ∀ j, a.table 1 ((2 ^ 17 + j) * 512 / 512) = a.table 1 (2 ^ 17 + j) := fun j => by
    rw [Nat.mul_div_cancel _ (by decide)]
  refine ⟨a.table 2 256, fun j => a.table 1 (2 ^ 17 + j), ?_⟩
  constructor
  case root => exact htable3 ▸ hlink hroot
  case linked =>
    intro j hj
    have hentry := hlink ((hpd j).mpr hj)
    rwa [hindex, htable2 j (by omega)] at hentry
  case unlinked =>
    intro j hj hge
    have hbare := h.bare 2 _ (hhas2 j hj) (fun hin => absurd ((hpd j).mp hin) (by omega)) (by
      rw [hleaves]
      exact Finset.notMem_empty _)
    unfold Growth.entry at hbare
    rwa [hindex, htable2 j hj] at hbare
  case leaves =>
    intro k hk
    have hleaf := h.leaf 1 (2 ^ 26 + k) (by
      rw [hleaves, mem_directLinks.2.2]
      omega)
    rw [hg.leaf k hk] at hleaf
    have hcell : a.entry s.ram 1 (2 ^ 26 + k) = s.ram (a.table 1 (2 ^ 17 + k / 512)) (Fin.ofNat 512 k) := by
      unfold Growth.entry
      congr 1
      · rw [show (2 ^ 26 + k) / 512 = 2 ^ 17 + k / 512 by omega]
      · refine Fin.ext ?_
        show (2 ^ 26 + k) % 512 = k % 512
        omega
    exact hcell.symm.trans hleaf
  case apart =>
    refine ⟨fun heq => ?_, fun j hj => ⟨fun heq => ?_, fun heq => ?_⟩⟩
    · rw [← htable2 0 (by decide), ← htable3] at heq
      exact absurd (h.injective _ _ _ _ (hhas2 0 (by decide)) hhas3 heq).1 (by decide)
    · rw [← htable1 j, ← htable3] at heq
      exact absurd (h.injective _ _ _ _ (hhas1 j hj) hhas3 heq).1 (by decide)
    · rw [← htable1 j, ← htable2 0 (by decide)] at heq
      exact absurd (h.injective _ _ _ _ (hhas1 j hj) (hhas2 0 (by decide)) heq).1 (by decide)
  case injective =>
    intro j hj k hk heq
    rw [← htable1 j, ← htable1 k] at heq
    have := (h.injective _ _ _ _ (hhas1 j hj) (hhas1 k hk) heq).2
    omega
  case fresh =>
    intro f hf
    refine ⟨fun heq => ?_, fun heq => ?_, fun j hj heq => ?_⟩
    · exact h.table_ne hhas3 hf (htable3.trans heq.symm)
    · exact h.table_ne (hhas2 0 (by decide)) hf ((htable2 0 (by decide)).trans heq.symm)
    · exact h.table_ne (hhas1 j hj) hf ((htable1 j).trans heq.symm)
  case nodup =>
    obtain ⟨taken, hframes, -⟩ := h.taken
    have hnodup := g.nodup
    rw [hframes] at hnodup
    exact hnodup.of_append_right
  case filled => decide
  case left => exact Nat.le_add_right _ _

/-- The direct map has one table below the PML4 and four below that. -/
theorem largePages_image : (largePages 2048).image (position 3) = {256} ∧
    (largePages 2048).image (position 2) = {131072, 131073, 131074, 131075} := by
  have hunion : ∀ l, (largePages 2048).image (position l) = (∅ ∪ largePages 2048).image (position l) :=
    fun l => by rw [Finset.empty_union]
  refine ⟨?_, ?_⟩
  · ext q
    rw [hunion, Finset.mem_singleton]
    exact mem_directLinks.1
  · ext q
    rw [hunion, Finset.mem_insert, Finset.mem_insert, Finset.mem_insert, Finset.mem_singleton]
    refine mem_directLinks.2.1.trans ?_
    omega

theorem linkCount_direct : linkCount (pageLinks ∅ (largePages 2048)) = 5 := by
  have hunion : ∀ l, (∅ ∪ largePages 2048).image (position l) = (largePages 2048).image (position l) :=
    fun l => by rw [Finset.empty_union]
  have hone : pageLinks ∅ (largePages 2048) 1 = ∅ := (pageLinks_one _ _).trans (Finset.image_empty _)
  exact linkCount_eq hone ((hunion 2).trans largePages_image.2) ((hunion 3).trans largePages_image.1)

/-- The whole loop, in a PML4 that does not use the entry yet. -/
theorem mapPhysicalMemory_ends (hfree : s.ram pml4 256 = .unused) (hpml4 : pml4 ∉ s.frames)
    (hnodup : s.frames.Nodup) (hlen : 5 ≤ s.frames.length) :
    Ends (mapPhysicalMemory pml4) s (fun _ s' => ∃ pdpt pd, Built pml4 pdpt pd 4 2048 s') E := by
  let g : Plot :=
    { root := pml4
      slots := fun i => i = 256
      before := s.ram
      frames := s.frames
      leaf := fun _ p => ⟨hugeFlags, BitVec.ofNat 40 ((p - 2 ^ 26) * 512)⟩
      links := fun flags => flags = linkFlags
      unused := fun i hi => hi ▸ hfree
      apart := hpml4
      nodup := hnodup
      present := fun flags hflags => hflags ▸ ⟨linkFlags_isPresent, linkFlags_isHuge⟩ }
  have hg : DirectPlot g pml4 ∅ :=
    { root := rfl
      slot := rfl
      links := rfl
      leaf := fun i _ => by
        show (⟨hugeFlags, BitVec.ofNat 40 ((2 ^ 26 + i - 2 ^ 26) * 512)⟩ : Entry) = _
        rw [Nat.add_sub_cancel_left]
      apart := fun page hpage => absurd hpage (Finset.notMem_empty _) }
  refine (mapPhysicalMemory_maps hg (mapsPages_empty g)).mono (fun _ s' hs' => ?_) fun s' hs' => ?_
  · exact built_of_maps hg (fun flags h => h) hs'
  · rw [linkCount_direct] at hs'
    exact absurd hs'.2 (Nat.not_lt.mpr hlen)

/-- An address below 4 GiB hits its frame. -/
theorem Built.hits (h : Built pml4 pdpt pd 4 2048 s) {n : Nat} (hn : n < 2 ^ 20) :
    walk s.ram 3 pml4 (directPage n) = some ⟨BitVec.ofNat 40 n, hugeFlags, true, false⟩ := by
  obtain ⟨h3, h2, h1⟩ := index_directPage (n := n) (by omega)
  have hroot := h3 ▸ h.root
  have hlinked := h2 ▸ h.linked (n / 512 / 512) (by omega)
  have hleaf := h1 ▸ h.leaves (n / 512) (by omega)
  rw [walk_through hroot linkFlags_isPresent linkFlags_isHuge,
    walk_through hlinked linkFlags_isPresent linkFlags_isHuge]
  have hleafWalk : walk s.ram 1 (pd (n / 512 / 512)) (directPage n) =
      some (leafOf 1 (directPage n) ⟨hugeFlags, BitVec.ofNat 40 (n / 512 * 512)⟩) := by
    rw [walk, hleaf]
    dsimp only
    rw [hugeFlags_isPresent, hugeFlags_isHuge, if_pos rfl, if_pos rfl, if_pos (by decide)]
  have hframe : BitVec.ofNat 40 (n / 512 * 512) + BitVec.ofNat 40 (directPage n % 512 ^ 1) =
      BitVec.ofNat 40 n := by
    rw [← BitVec.ofNat_add]
    congr 1
    unfold directPage physicalMemoryOffset
    omega
  have hleafEq : leafOf 1 (directPage n) ⟨hugeFlags, BitVec.ofNat 40 (n / 512 * 512)⟩ =
      ⟨BitVec.ofNat 40 n, hugeFlags, true, false⟩ := by
    simp only [leafOf, hframe, hugeFlags_rights]
  rw [hleafWalk, hleafEq]
  simp only [Option.map_some, Translation.under, linkFlags_rights, Bool.true_and, Bool.false_and]

/-- An address above faults, as far as the entry of the PML4 reaches. -/
theorem Built.faults (h : Built pml4 pdpt pd 4 2048 s) {n : Nat} (hn : 2 ^ 20 ≤ n) (hn' : n < 2 ^ 27) :
    walk s.ram 3 pml4 (directPage n) = none := by
  obtain ⟨h3, h2, -⟩ := index_directPage (n := n) hn'
  have hroot := h3 ▸ h.root
  have hunlinked := h2 ▸ h.unlinked (n / 512 / 512) (by omega) (by omega)
  rw [walk_through hroot linkFlags_isPresent linkFlags_isHuge, walk, hunlinked]
  rfl

/-! ## The frames of the allocator -/

/-- If a descriptor has a page beyond the limit, enough calls return a frame beyond it. -/
theorem allocateFrames_passes {map : BootMemoryMap} (hmap : ∀ d ∈ map.iter, d.isUsable = true → d.Sound)
    {limit : Nat} {d : BootMemoryDescriptor} (hd : d ∈ map.iter) (hu : d.isUsable = true)
    (hpages : 0 < d.pageCount) (hlimit : limit < d.physStart + d.pageCount * pageSize) (next : Nat)
    (hnext : pageSize ∣ next) (hle : next ≤ limit) :
    ∃ count frames a, FrameAllocator.allocateFrames ⟨map, next⟩ count = .ok (frames, a) ∧
      ∃ f ∈ frames, limit < f.startAddress + pageSize := by
  rcases allocateLoop_first hnext hmap with ⟨-, hnone⟩ | ⟨before, e, after, hsplit, -, he, hsome⟩
  · -- the descriptor itself offers a frame
    have hoffers : d.Offers next := by
      refine ⟨hu, ?_⟩
      unfold BootMemoryDescriptor.stop
      unfold pageSize at hlimit ⊢
      omega
    exact absurd hoffers (hnone d hd)
  · have hsound := hmap e (by rw [hsplit]; exact List.mem_append_cons_self) he.1
    have hcall := allocatePhysicalFrame_of_loop hsome
    have hge : next ≤ max next e.physStart := Nat.le_max_left _ _
    have hdvd := dvd_max hnext hsound
    generalize max next e.physStart = addr at hcall hge hdvd
    by_cases hpassed : limit < addr + pageSize
    · refine ⟨1, [⟨addr⟩], ⟨map, addr + pageSize⟩, ?_, _, List.mem_singleton_self _, hpassed⟩
      unfold FrameAllocator.allocateFrames
      rw [hcall]
      rfl
    · -- the pointer has moved on, and the limit is still ahead of it
      obtain ⟨count, frames, a, heq, g, hg, hpassed⟩ := allocateFrames_passes hmap hd hu hpages hlimit
        (addr + pageSize) (Nat.dvd_add hdvd (Nat.dvd_refl _)) (Nat.le_of_not_lt hpassed)
      refine ⟨count + 1, ⟨addr⟩ :: frames, a, ?_, g, List.mem_cons_of_mem _ hg, hpassed⟩
      unfold FrameAllocator.allocateFrames
      rw [hcall]
      show (FrameAllocator.allocateFrames ⟨map, addr + pageSize⟩ count >>= _) = _
      rw [heq]
      rfl
termination_by limit - next
decreasing_by
  unfold pageSize at *
  omega

end DirectMapLemmas

open DirectMapLemmas

/-- The limit of the direct map. -/
def directMapEnd : Nat := 4 * 1024 * 1024 * 1024

/-- The kernel reaches the frame: in the tables that the loop of the loader leaves, on any scratchpad of
five frames at least and in any PML4 that does not use the entry yet, the address of the frame in the direct
map is translated to the frame, for writing. -/
def PhysFrame.Reachable (f : PhysFrame) : Prop :=
  ∀ (pml4 : Frame) (s : PhysMem), s.ram pml4 256 = .unused → pml4 ∉ s.frames → s.frames.Nodup →
    5 ≤ s.frames.length → ∃ s' tr, (mapPhysicalMemory pml4).result s = some ((), s') ∧
      walk s'.ram 3 pml4 ((physicalMemoryOffset + f.startAddress) / 4096) = some tr ∧
      tr.frame.toNat * 4096 = f.startAddress ∧ tr.writable = true

/-- Every frame that the allocator returns, in any number of calls, lies in the first 4 GiB and is reached
through the direct map. -/
def DirectlyMapped (map : BootMemoryMap) : Prop :=
  ∀ count frames a, (FrameAllocator.new map).allocateFrames count = .ok (frames, a) → ∀ f ∈ frames,
    f.startAddress + 4096 ≤ directMapEnd ∧ f.Reachable

namespace DirectMapLemmas

theorem reachable_of_le {f : PhysFrame} (haligned : 4096 ∣ f.startAddress)
    (h : f.startAddress + 4096 ≤ directMapEnd) : f.Reachable := by
  intro pml4 s hfree hpml4 hnodup hlen
  obtain ⟨n, hn⟩ := haligned
  unfold directMapEnd at h
  obtain ⟨_, s', hresult, pdpt, pd, hbuilt⟩ := (mapPhysicalMemory_ends hfree hpml4 hnodup hlen).total
  have hwalk := hbuilt.hits (n := n) (by omega)
  have hpage : directPage n = (physicalMemoryOffset + f.startAddress) / 4096 := by
    rw [directPage, hn, Nat.mul_comm]
  rw [hpage] at hwalk
  refine ⟨s', _, hresult, hwalk, ?_, rfl⟩
  dsimp only
  rw [toNat_frame (by omega), hn, Nat.mul_comm]

end DirectMapLemmas

/-- All frames are reachable exactly if no usable memory lies beyond the 4 GiB that the loader maps. -/
theorem frames_in_direct_map_iff (map : BootMemoryMap)
    (hmap : ∀ d ∈ map.iter, d.isUsable = true → d.Sound) :
    DirectlyMapped map ↔ ∀ d ∈ map.iter, d.isUsable = true → 0 < d.pageCount →
      d.physStart + d.pageCount * 4096 ≤ directMapEnd := by
  constructor
  · intro h d hd hu hpages
    by_contra hbeyond
    obtain ⟨count, frames, a, heq, f, hf, hpassed⟩ := allocateFrames_passes hmap hd hu hpages
      (Nat.lt_of_not_le hbeyond) lowMemoryCutoff (by decide) (by decide)
    exact absurd (h count frames a heq f hf).1 (Nat.not_le.mpr hpassed)
  · intro h count frames a heq f hf
    obtain ⟨frames', next, heq', -, hall⟩ := allocateFrames_spec map hmap count lowMemoryCutoff
    cases heq.symm.trans heq'
    obtain ⟨-, hdvd, d, hd, hu, hstart, hstop⟩ := hall f hf
    have hpages : 0 < d.pageCount := by
      unfold pageSize at hstop
      omega
    have hend : f.startAddress + 4096 ≤ directMapEnd := Nat.le_trans hstop (h d hd hu hpages)
    exact ⟨hend, reachable_of_le hdvd hend⟩

/-- The sample map, whose usable memory ends below 2 MiB. -/
theorem frames_in_direct_map_sample : DirectlyMapped sampleMap := by
  refine (frames_in_direct_map_iff sampleMap sampleMap_sound).mpr ?_
  rw [sampleMap_iter]
  decide

/-- One usable descriptor, of two pages from 4 GiB on. -/
def highMap : BootMemoryMap := ⟨some fun _ => ⟨7, 0x100000000, 2⟩, 40, 40⟩

/-- A blank PML4 in frame 0 and a scratchpad of five frames. -/
def blankBoot : PhysMem := ⟨fun _ _ => .unused, [1, 2, 3, 4, 5], [], [], []⟩

/-- The first frame is the one at 4 GiB, and the address through which the kernel would access it is not
mapped. -/
theorem frame_beyond_direct_map :
    ¬ DirectlyMapped highMap ∧
    (∃ a, (FrameAllocator.new highMap).allocateFrames 1 = .ok ([⟨0x100000000⟩], a)) ∧
    ¬ PhysFrame.Reachable ⟨0x100000000⟩ := by
  have hcall : ∃ a, (FrameAllocator.new highMap).allocateFrames 1 = .ok ([⟨0x100000000⟩], a) := by
    have hframes : ((FrameAllocator.new highMap).allocateFrames 1).toOption.map Prod.fst =
        some [⟨0x100000000⟩] := by decide +kernel
    generalize (FrameAllocator.new highMap).allocateFrames 1 = r at hframes ⊢
    obtain ⟨⟨frames, a⟩, hr, hfirst⟩ := Option.map_eq_some_iff.mp hframes
    cases r with
    | error e => cases hr
    | ok r =>
      cases hr
      subst hfirst
      exact ⟨a, rfl⟩
  refine ⟨fun h => ?_, hcall, fun h => ?_⟩
  · obtain ⟨a, ha⟩ := hcall
    exact absurd (h 1 _ _ ha _ (List.mem_singleton_self _)).1 (by decide)
  · have hends : Ends (mapPhysicalMemory 0) blankBoot
        (fun _ s' => ∃ pdpt pd, Built 0 pdpt pd 4 2048 s') fun _ => False :=
      mapPhysicalMemory_ends rfl (by decide) (by decide) (by decide)
    obtain ⟨s', tr, hresult, hwalk, -⟩ := h 0 blankBoot rfl (by decide) (by decide) (by decide)
    obtain ⟨pdpt, pd, hbuilt⟩ := hends.returns hresult
    have hfaults := hbuilt.faults (n := 2 ^ 20) (by decide) (by decide)
    have hpage : directPage (2 ^ 20) = (physicalMemoryOffset + 0x100000000) / 4096 := by decide
    rw [hpage] at hfaults
    rw [hfaults] at hwalk
    cases hwalk

end Turnix
