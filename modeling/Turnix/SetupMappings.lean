import Mathlib.Order.Interval.Finset.Nat
import Turnix.DirectMap
import Turnix.KernelImage
import Turnix.Lib.PageTree
import Turnix.Lib.PageView

/-!
# The page tables of the loader

`setup_mappings` of `boot/uefi-loader/src/main.rs`, and the part of `main` that calls it. The new PML4 gets the
lower half of the firmware's. The kernel and the ramdisk are mapped in pages of 4 KiB by `map_to` and the
direct map in large pages by hand, and the tables of all three come from one bump allocator.

`buildPml4_ends` says what the three loops leave, and how many frames they take. `loader_mappings`: all
addresses are translated as they should be.
-/

namespace Turnix

open Lib Lib.Paging PanicM DirectMapLemmas

/-! ## The code -/

/-- `RAMDISK_VIRTUAL_BASE`. -/
def ramdiskVirtualBase : Nat := 0xFFFF900000000000

/-- `PhysAddr::new`. -/
def newPhysAddr (a : Nat) : PanicM PhysMem Nat := do
  PanicM.ensure (decide (a < 2 ^ 52))
  return a

/-- `size.div_ceil(4096)`. -/
def pageCount (size : Nat) : Nat := (size + 4095) / 4096

/-- The frames that `alloc` returns: those of the scratchpad after the first, and then those behind it, up to
the first address that `PhysAddr::new` rejects. -/
@[irreducible]
def scratchFrames (scratchpadPhys : Nat) : List Frame :=
  (List.range' (scratchpadPhys / 4096 + 1) (2 ^ 40 - (scratchpadPhys / 4096 + 1))).map (BitVec.ofNat 40)

/-- The body of the loops over the pages of the kernel and of the ramdisk. A sum beyond `u64` is no address
either. -/
def mapLoaderPage (c : Mapper) (pml4 : Frame) (virtualBase physicalBase i : Nat) : PanicM PhysMem Unit := do
  let addr ← virtAddr (virtualBase + i * 4096)
  let phys ← newPhysAddr (physicalBase + i * 4096)
  expectOk (← mapTo c pml4 (addr / 4096) (BitVec.ofNat 40 (phys / 4096)) kernelFlags)

/-- `setup_mappings`; `cr3` is the frame in `CR3`. -/
def setupMappings (c : Mapper) (cr3 pml4 : Frame) (scratchpadPhys : Nat) (kernel : Uefi.LoadedKernel)
    (ramdiskPhys ramdiskSize : Nat) : PanicM PhysMem Unit := do
  let s ← PanicM.get
  setTable pml4 fun i => if i.val < 256 then s.ram cr3 i else s.ram pml4 i
  PanicM.modify fun s => { s with frames := scratchFrames scratchpadPhys }
  PanicM.forRange (mapLoaderPage c pml4 kernel.virtualBase kernel.physicalBase)
    (pageCount kernel.imageSize) 0
  if ramdiskSize > 0 then
    PanicM.forRange (mapLoaderPage c pml4 ramdiskVirtualBase ramdiskPhys) (pageCount ramdiskSize) 0
  mapPhysicalMemory pml4

/-- The frame of the new PML4, the first of the scratchpad. -/
def newPml4 (scratchpadPhys : Nat) : Frame := BitVec.ofNat 40 (scratchpadPhys / 4096)

/-- The step "Build the NEW PML4" of `main`. -/
def buildPml4 (c : Mapper) (cr3 : Frame) (scratchpadPhys : Nat) (kernel : Uefi.LoadedKernel)
    (ramdiskPhys ramdiskSize : Nat) : PanicM PhysMem Unit := do
  setTable (newPml4 scratchpadPhys) fun _ => .unused
  setupMappings c cr3 (newPml4 scratchpadPhys) scratchpadPhys kernel ramdiskPhys ramdiskSize

/-! ## What is to be mapped -/

/-- `count` pages from `page` on, to as many frames. -/
structure PageRun where
  page : Nat
  count : Nat
  frame : Nat
deriving DecidableEq, Repr

/-- The pages of a run. -/
def PageRun.pages (r : PageRun) : Finset Nat := (Finset.range r.count).image (r.page + ·)

/-- The pages of the kernel. -/
def kernelRun (kernel : Uefi.LoadedKernel) : PageRun :=
  ⟨kernel.virtualBase / 4096, pageCount kernel.imageSize, kernel.physicalBase / 4096⟩

/-- The pages of the ramdisk. -/
def ramdiskRun (ramdiskPhys ramdiskSize : Nat) : PageRun :=
  ⟨ramdiskVirtualBase / 4096, pageCount ramdiskSize, ramdiskPhys / 4096⟩

/-- All pages of 4 KiB. -/
def loaderPages (kernel : Uefi.LoadedKernel) (ramdiskSize : Nat) : Finset Nat :=
  (kernelRun kernel).pages ∪ (ramdiskRun 0 ramdiskSize).pages

/-- The number of tables below the PML4 for these pages and the direct map: a page table for each 2 MiB, a
page directory for each GiB and a table above it for each 512 GiB in which there is something. The large
pages have no page tables. -/
def tablesNeeded (pages : Finset Nat) : Nat :=
  (pages.image (position 1)).card + ((pages ∪ largePages 2048).image (position 2)).card +
    ((pages ∪ largePages 2048).image (position 3)).card

/-- The number of tables of level `l` for the pages of a run: those of its first and last page, and all in
between. -/
def PageRun.tables (r : PageRun) (l : Nat) : Nat :=
  if r.count = 0 then 0 else position l (r.page + r.count - 1) + 1 - position l r.page

/-- The kernel and the ramdisk can be mapped: their pages have addresses and do not overlap, they are not
in the 4 GiB of the direct map, and where they are in the lower half the firmware does not use the
entry of the PML4. -/
structure Placed (ram : Ram) (cr3 : Frame) (kernel : Uefi.LoadedKernel) (ramdiskPhys ramdiskSize : Nat) :
    Prop where
  aligned : 4096 ∣ kernel.virtualBase
  kernel_phys : kernel.physicalBase + pageCount kernel.imageSize * 4096 ≤ 2 ^ 52
  ramdisk_phys : ramdiskPhys + pageCount ramdiskSize * 4096 ≤ 2 ^ 52
  canonical : ∀ page ∈ loaderPages kernel ramdiskSize, canonical (page * 4096) = true
  apart : Disjoint (kernelRun kernel).pages (ramdiskRun ramdiskPhys ramdiskSize).pages
  direct : ∀ page ∈ loaderPages kernel ramdiskSize, ∀ n < 2 ^ 20, page ≠ directPage n
  free : ∀ page ∈ loaderPages kernel ramdiskSize, (index 3 page).val < 256 →
    ram cr3 (index 3 page) = .unused

namespace SetupLemmas

variable {c : Mapper} {g : Plot} {small : Finset Nat} {s : PhysMem} {E : PhysMem → Prop}

theorem ends_newPhysAddr {a : Nat} {Q : Nat → PhysMem → Prop} :
    Ends (newPhysAddr a) s Q E ↔ (a < 2 ^ 52 → Q a s) ∧ (¬ a < 2 ^ 52 → E s) := by
  unfold newPhysAddr
  rw [ends_bind, ends_ensure, decide_eq_true_iff, decide_eq_false_iff_not]
  exact Iff.rfl

/-! ### The scratchpad -/

theorem scratchFrames_length (scratchpadPhys : Nat) :
    (scratchFrames scratchpadPhys).length = 2 ^ 40 - (scratchpadPhys / 4096 + 1) := by
  unfold scratchFrames
  rw [List.length_map, List.length_range']

theorem mem_scratchFrames {scratchpadPhys : Nat} {f : Frame} :
    f ∈ scratchFrames scratchpadPhys ↔ scratchpadPhys / 4096 < f.toNat := by
  unfold scratchFrames
  rw [List.mem_map]
  have hf := f.isLt
  constructor
  · rintro ⟨n, hn, rfl⟩
    rw [List.mem_range'_1] at hn
    rw [toNat_frame (by omega)]
    omega
  · intro h
    refine ⟨f.toNat, ?_, by rw [BitVec.ofNat_toNat, BitVec.setWidth_eq]⟩
    rw [List.mem_range'_1]
    omega

theorem scratchFrames_nodup (scratchpadPhys : Nat) : (scratchFrames scratchpadPhys).Nodup := by
  unfold scratchFrames
  refine List.Nodup.map_on ?_ (List.nodup_range' ..)
  intro m hm n hn heq
  rw [List.mem_range'_1] at hm hn
  have hval := congrArg BitVec.toNat heq
  rwa [toNat_frame (by omega), toNat_frame (by omega)]
    at hval

/-- The frames that were taken are those that follow the first of the scratchpad. -/
theorem mem_taken {scratchpadPhys : Nat} {taken rest : List Frame}
    (h : scratchFrames scratchpadPhys = taken ++ rest) {f : Frame} :
    f ∈ taken ↔ scratchpadPhys / 4096 < f.toNat ∧ f.toNat ≤ scratchpadPhys / 4096 + taken.length := by
  have hlength := congrArg List.length h
  rw [scratchFrames_length, List.length_append] at hlength
  have htake : taken = (List.range' (scratchpadPhys / 4096 + 1) taken.length).map (BitVec.ofNat 40) := by
    have hsplit := @List.range'_append_1 (scratchpadPhys / 4096 + 1) taken.length rest.length
    rw [← hlength] at hsplit
    rw [scratchFrames, ← hsplit, List.map_append] at h
    exact (List.append_inj_left h (by rw [List.length_map, List.length_range'])).symm
  have hf := f.isLt
  rw [htake, List.mem_map, List.length_map, List.length_range']
  constructor
  · rintro ⟨n, hn, rfl⟩
    rw [List.mem_range'_1] at hn
    rw [toNat_frame (by omega)]
    omega
  · rintro ⟨hgt, hle⟩
    refine ⟨f.toNat, ?_, by rw [BitVec.ofNat_toNat, BitVec.setWidth_eq]⟩
    rw [List.mem_range'_1]
    omega

theorem newPml4_notMem (scratchpadPhys : Nat) (h : scratchpadPhys < 2 ^ 52) :
    newPml4 scratchpadPhys ∉ scratchFrames scratchpadPhys := by
  rw [mem_scratchFrames]
  unfold newPml4
  rw [toNat_frame (by omega)]
  exact Nat.lt_irrefl _

/-! ### Pages -/

theorem canonical_page {page : Nat} (h : canonical (page * 4096) = true) :
    page < 2 ^ 35 ∨ (2 ^ 52 - 2 ^ 35 ≤ page ∧ page < 2 ^ 52) := by
  rw [canonical_iff] at h
  omega

theorem position_lt (page : Nat) : position 0 page < 2 ^ 36 := by
  rw [position_zero]
  exact Nat.mod_lt _ (by decide)

/-- Pages that have addresses have different entries. -/
theorem position_injective {page page' : Nat} (h : canonical (page * 4096) = true)
    (h' : canonical (page' * 4096) = true) (heq : position 0 page = position 0 page') : page = page' := by
  have hpage := canonical_page h
  have hpage' := canonical_page h'
  rw [position_zero, position_zero] at heq
  omega

theorem mem_pages {r : PageRun} {page : Nat} : page ∈ r.pages ↔ ∃ i < r.count, page = r.page + i := by
  unfold PageRun.pages
  simp only [Finset.mem_image, Finset.mem_range, eq_comm]

/-- The number of a page in its run, by its position. -/
def offset (r : PageRun) (p : Nat) : Nat := (p + 2 ^ 36 - r.page % 2 ^ 36) % 2 ^ 36

theorem offset_position {r : PageRun} {i : Nat} (hi : i < 2 ^ 36) :
    offset r (position 0 (r.page + i)) = i := by
  rw [offset, position_zero]
  omega

theorem position_offset {r : PageRun} {p : Nat} (hp : p < 2 ^ 36) :
    position 0 (r.page + offset r p) = p := by
  rw [offset, position_zero]
  omega

theorem count_le {r : PageRun} (h : ∀ page ∈ r.pages, canonical (page * 4096) = true) :
    r.count ≤ 2 ^ 35 := by
  by_contra hmany
  have hfirst := canonical_page (h r.page (mem_pages.mpr ⟨0, by omega, rfl⟩))
  have hlater := canonical_page (h (r.page + 2 ^ 35) (mem_pages.mpr ⟨2 ^ 35, by omega, rfl⟩))
  omega

/-! ### The loops over pages of 4 KiB -/

/-- The pages of the run can be mapped below the PML4, by a loop from these addresses on. -/
structure RunPlot (g : Plot) (r : PageRun) (virtualBase physicalBase : Nat) : Prop where
  virtual : virtualBase = r.page * 4096
  physical : physicalBase / 4096 = r.frame
  physical_end : physicalBase + r.count * 4096 ≤ 2 ^ 52
  canonical : ∀ page ∈ r.pages, canonical (page * 4096) = true
  slots : ∀ page ∈ r.pages, g.slots (index 3 page)
  leaf : ∀ i < r.count, g.leaf 0 (position 0 (r.page + i)) = ⟨kernelFlags, BitVec.ofNat 40 (r.frame + i)⟩
  links : ∀ flags, g.links flags ↔ flags.isPresent = true ∧ flags.isHuge = false

theorem kernelFlags_isPresent : kernelFlags.isPresent = true := by decide

theorem kernelFlags_isHuge : kernelFlags.isHuge = false := by decide

/-- One turn maps one page more. -/
theorem mapLoaderPage_maps {r : PageRun} {virtualBase physicalBase i : Nat} (hc : c.Lawful)
    (hg : RunPlot g r virtualBase physicalBase) (hi : i < r.count)
    (hnew : position 0 (r.page + i) ∉ small.image (position 0))
    (h : MapsPages g small ∅ s.ram s.frames) :
    Ends (mapLoaderPage c g.root virtualBase physicalBase i) s
      (fun _ s' => MapsPages g (insert (r.page + i) small) ∅ s'.ram s'.frames)
      (fun s' => s'.frames = [] ∧ g.frames.length < linkCount (pageLinks (insert (r.page + i) small) ∅)) := by
  have hpage := mem_pages.mpr ⟨i, hi, rfl⟩
  have haddr : virtualBase + i * 4096 = (r.page + i) * 4096 := by
    rw [hg.virtual]
    omega
  have hframe : (physicalBase + i * 4096) / 4096 = r.frame + i := by
    rw [← hg.physical]
    omega
  have hphys := hg.physical_end
  unfold mapLoaderPage
  rw [ends_bind, haddr, ends_virtAddr]
  refine ⟨fun _ => ?_, fun hnot => absurd ((hg.canonical _ hpage).symm.trans hnot) (by decide)⟩
  rw [ends_bind, ends_newPhysAddr, Nat.mul_div_cancel _ (by decide), hframe]
  refine ⟨fun _ => ?_, fun hover => absurd (by omega) hover⟩
  rw [ends_bind]
  refine ends_mapTo_does hc kernelFlags_isPresent kernelFlags_isHuge fun out writes _ hmap => ?_
  have hmapped := h.mapTo hmap (fun w => ?_) (fun w F hF => ?_) (hg.leaf i hi) (hg.slots _ hpage) hnew
    (by rw [Finset.image_empty]; exact Finset.notMem_empty _)
  · rw [ends_expectOk]
    rcases hmapped with ⟨hok, hmaps⟩ | ⟨herror, hempty, hlt⟩
    · exact ⟨fun _ => hmaps, fun e he => absurd (hok.symm.trans he) (by intro h; cases h)⟩
    · exact ⟨fun hok => absurd (herror.symm.trans hok) (by intro h; cases h), fun _ _ => ⟨hempty, hlt⟩⟩
  · rw [hg.links]
    exact ⟨tableFlags_isPresent _ _, tableFlags_isHuge _ _⟩
  · rw [hg.links] at hF ⊢
    rw [Flags.isPresent_union, Flags.isHuge_union, hF.1, hF.2, tableFlags_isHuge]
    exact ⟨rfl, rfl⟩

/-- The whole loop. -/
theorem mapRun_maps {r : PageRun} {virtualBase physicalBase : Nat} (hc : c.Lawful)
    (hg : RunPlot g r virtualBase physicalBase)
    (hsmall : ∀ page ∈ small, canonical (page * 4096) = true) (hapart : Disjoint small r.pages)
    (h : MapsPages g small ∅ s.ram s.frames) :
    Ends (PanicM.forRange (mapLoaderPage c g.root virtualBase physicalBase) r.count 0) s
      (fun _ s' => MapsPages g (small ∪ r.pages) ∅ s'.ram s'.frames)
      (fun s' => s'.frames = [] ∧ g.frames.length < linkCount (pageLinks (small ∪ r.pages) ∅)) := by
  have hsub : ∀ {i}, i ≤ r.count →
      small ∪ (Finset.range i).image (r.page + ·) ⊆ small ∪ r.pages := fun hi =>
    Finset.union_subset_union (Finset.Subset.refl _)
      (Finset.image_subset_image (Finset.range_subset_range.mpr hi))
  have hloop := @ends_forRange _ (mapLoaderPage c g.root virtualBase physicalBase)
    (fun i s' => MapsPages g (small ∪ (Finset.range i).image (r.page + ·)) ∅ s'.ram s'.frames)
    (fun s' => s'.frames = [] ∧ g.frames.length < linkCount (pageLinks (small ∪ r.pages) ∅)) r.count 0 s
  rw [Nat.zero_add] at hloop
  refine hloop ?_ fun i s' _ hi hs' => ?_
  · rwa [Finset.range_zero, Finset.image_empty, Finset.union_empty]
  · have hinsert : insert (r.page + i) (small ∪ (Finset.range i).image (r.page + ·)) =
        small ∪ (Finset.range (i + 1)).image (r.page + ·) := by
      rw [Finset.range_add_one, Finset.image_insert, Finset.union_insert]
    have hpage := mem_pages.mpr ⟨i, hi, rfl⟩
    have hnew : position 0 (r.page + i) ∉
        (small ∪ (Finset.range i).image (r.page + ·)).image (position 0) := by
      intro hin
      obtain ⟨page, hin, heq⟩ := Finset.mem_image.mp hin
      rcases Finset.mem_union.mp hin with hin | hin
      · have hsame := position_injective (hsmall page hin) (hg.canonical _ hpage) heq
        exact Finset.disjoint_left.mp hapart hin (hsame ▸ hpage)
      · obtain ⟨j, hj, rfl⟩ := Finset.mem_image.mp hin
        have hj := Finset.mem_range.mp hj
        have hsame := position_injective (hg.canonical _ (mem_pages.mpr ⟨j, by omega, rfl⟩))
          (hg.canonical _ hpage) heq
        omega
    have hturn := mapLoaderPage_maps hc hg hi hnew hs'
    rw [hinsert] at hturn
    refine hturn.mono (fun _ _ h => h) fun s'' hs'' => ⟨hs''.1, hs''.2.trans_le ?_⟩
    exact pageLinks_mono (hsub hi) (Finset.Subset.refl _)

/-! ### All of it -/

/-- Memory when the loops start: the new PML4 has the lower half of the firmware's. -/
def clonedRam (ram : Ram) (cr3 pml4 : Frame) : Ram :=
  ram.setTable pml4 fun i => if i.val < 256 then ram.setTable pml4 (fun _ => .unused) cr3 i else .unused

/-- The two writes to the new PML4. -/
theorem setTable_cloned (ram : Ram) (cr3 pml4 : Frame) :
    (ram.setTable pml4 fun _ => .unused).setTable pml4 (fun i =>
      if i.val < 256 then ram.setTable pml4 (fun _ => .unused) cr3 i
      else ram.setTable pml4 (fun _ => .unused) pml4 i) = clonedRam ram cr3 pml4 := by
  unfold clonedRam
  rw [Ram.setTable_self]
  exact Function.update_idem _ _ _

theorem clonedRam_of_ne {ram : Ram} {cr3 pml4 f : Frame} (h : f ≠ pml4) :
    clonedRam ram cr3 pml4 f = ram f := Ram.setTable_of_ne h _

theorem clonedRam_upper {ram : Ram} {cr3 pml4 : Frame} {i : Fin 512} (hi : 256 ≤ i.val) :
    clonedRam ram cr3 pml4 pml4 i = .unused := by
  unfold clonedRam
  rw [Ram.setTable_self, if_neg (by omega)]

theorem clonedRam_lower {ram : Ram} {cr3 pml4 : Frame} {i : Fin 512} (hi : i.val < 256)
    (hfree : ram cr3 i = .unused) : clonedRam ram cr3 pml4 pml4 i = .unused := by
  unfold clonedRam
  rw [Ram.setTable_self, if_pos hi]
  by_cases heq : cr3 = pml4
  · rw [heq, Ram.setTable_self]
  · rwa [Ram.setTable_of_ne heq]

/-- The leaves: pages of the kernel, pages of the ramdisk, and large pages. -/
def loaderLeaf (kernel ramdisk : PageRun) (l p : Nat) : Entry :=
  if l = 0 then
    if offset kernel p < kernel.count then ⟨kernelFlags, BitVec.ofNat 40 (kernel.frame + offset kernel p)⟩
    else ⟨kernelFlags, BitVec.ofNat 40 (ramdisk.frame + offset ramdisk p)⟩
  else ⟨hugeFlags, BitVec.ofNat 40 ((p - 2 ^ 26) * 512)⟩

/-- What the loops start from. -/
def loaderPlot (before : Ram) {scratchpadPhys : Nat} (hphys : scratchpadPhys < 2 ^ 52)
    (kernel ramdisk : PageRun) : Plot where
  root := newPml4 scratchpadPhys
  slots i := before (newPml4 scratchpadPhys) i = .unused
  before := before
  frames := scratchFrames scratchpadPhys
  leaf := loaderLeaf kernel ramdisk
  links flags := flags.isPresent = true ∧ flags.isHuge = false
  unused _ h := h
  apart := newPml4_notMem scratchpadPhys hphys
  nodup := scratchFrames_nodup scratchpadPhys
  present _ h := h

variable {cr3 : Frame} {kernel : Uefi.LoadedKernel} {scratchpadPhys ramdiskPhys ramdiskSize : Nat}

/-- The plot of the loader, for a memory that has the lower half of the firmware. -/
abbrev plotOf (ram : Ram) (cr3 : Frame) (hphys : scratchpadPhys < 2 ^ 52) (kernel : Uefi.LoadedKernel)
    (ramdiskPhys ramdiskSize : Nat) : Plot :=
  loaderPlot (clonedRam ram cr3 (newPml4 scratchpadPhys)) hphys (kernelRun kernel)
    (ramdiskRun ramdiskPhys ramdiskSize)

theorem placed_slots (h : Placed s.ram cr3 kernel ramdiskPhys ramdiskSize) (hphys : scratchpadPhys < 2 ^ 52)
    {page : Nat} (hpage : page ∈ loaderPages kernel ramdiskSize) :
    (plotOf s.ram cr3 hphys kernel ramdiskPhys ramdiskSize).slots (index 3 page) := by
  by_cases hi : (index 3 page).val < 256
  · exact clonedRam_lower hi (h.free page hpage hi)
  · exact clonedRam_upper (by omega)

/-- A run of the pages that are placed can be mapped, if its leaves are those of the plot. -/
theorem run_plot (h : Placed s.ram cr3 kernel ramdiskPhys ramdiskSize) (hphys : scratchpadPhys < 2 ^ 52)
    {r : PageRun} {virtualBase physicalBase : Nat} (hin : r.pages ⊆ loaderPages kernel ramdiskSize)
    (hvirtual : virtualBase = r.page * 4096) (hphysical : physicalBase / 4096 = r.frame)
    (hend : physicalBase + r.count * 4096 ≤ 2 ^ 52)
    (hleaf : ∀ i < r.count, i < 2 ^ 36 →
      loaderLeaf (kernelRun kernel) (ramdiskRun ramdiskPhys ramdiskSize) 0 (position 0 (r.page + i)) =
        ⟨kernelFlags, BitVec.ofNat 40 (r.frame + i)⟩) :
    RunPlot (plotOf s.ram cr3 hphys kernel ramdiskPhys ramdiskSize) r virtualBase physicalBase := by
  have hcanonical : ∀ page ∈ r.pages, canonical (page * 4096) = true :=
    fun page hpage => h.canonical page (hin hpage)
  have hcount := count_le hcanonical
  exact {
    virtual := hvirtual
    physical := hphysical
    physical_end := hend
    canonical := hcanonical
    slots := fun page hpage => placed_slots h hphys (hin hpage)
    leaf := fun i hi => hleaf i hi (by omega)
    links := fun flags => Iff.rfl }

theorem kernel_plot (h : Placed s.ram cr3 kernel ramdiskPhys ramdiskSize)
    (hphys : scratchpadPhys < 2 ^ 52) :
    RunPlot (plotOf s.ram cr3 hphys kernel ramdiskPhys ramdiskSize) (kernelRun kernel)
      kernel.virtualBase kernel.physicalBase := by
  refine run_plot h hphys Finset.subset_union_left (Nat.div_mul_cancel h.aligned).symm rfl h.kernel_phys
    fun i hi hlt => ?_
  unfold loaderLeaf
  rw [if_pos rfl, offset_position hlt, if_pos hi]

theorem ramdisk_plot (h : Placed s.ram cr3 kernel ramdiskPhys ramdiskSize)
    (hphys : scratchpadPhys < 2 ^ 52) :
    RunPlot (plotOf s.ram cr3 hphys kernel ramdiskPhys ramdiskSize) (ramdiskRun ramdiskPhys ramdiskSize)
      ramdiskVirtualBase ramdiskPhys := by
  have hin : (ramdiskRun ramdiskPhys ramdiskSize).pages ⊆ loaderPages kernel ramdiskSize :=
    Finset.subset_union_right
  refine run_plot h hphys hin (Nat.div_mul_cancel (by decide)).symm rfl h.ramdisk_phys fun i hi hlt => ?_
  have hpage := mem_pages.mpr ⟨i, hi, rfl⟩
  -- otherwise it would be a page of the kernel too
  have hnot : ¬ offset (kernelRun kernel) (position 0 ((ramdiskRun ramdiskPhys ramdiskSize).page + i)) <
      (kernelRun kernel).count := by
    intro hlt
    have hother := mem_pages.mpr ⟨_, hlt, rfl⟩
    have hsame := position_injective (h.canonical _ (Finset.mem_union_left _ hother))
      (h.canonical _ (hin hpage)) (position_offset (position_lt _))
    rw [hsame] at hother
    exact Finset.disjoint_left.mp h.apart hother hpage
  unfold loaderLeaf
  rw [if_pos rfl, if_neg hnot, offset_position hlt]

theorem direct_plot (h : Placed s.ram cr3 kernel ramdiskPhys ramdiskSize)
    (hphys : scratchpadPhys < 2 ^ 52) :
    DirectPlot (plotOf s.ram cr3 hphys kernel ramdiskPhys ramdiskSize) (newPml4 scratchpadPhys)
      (loaderPages kernel ramdiskSize) := by
  constructor
  case root => rfl
  case slot => exact clonedRam_upper (i := 256) (by decide)
  case links => exact ⟨linkFlags_isPresent, linkFlags_isHuge⟩
  case leaf =>
    intro i hi
    show loaderLeaf (kernelRun kernel) (ramdiskRun ramdiskPhys ramdiskSize) 1 (2 ^ 26 + i) = _
    unfold loaderLeaf
    rw [if_neg (by decide), Nat.add_sub_cancel_left]
  case apart =>
    intro page hpage i hi heq
    have hcanonical := canonical_page (h.canonical page hpage)
    have hdirect := h.direct page hpage (page % 2 ^ 36 - 2 ^ 35)
    unfold position at heq
    unfold directPage physicalMemoryOffset at hdirect
    omega

theorem tablesNeeded_eq (pages : Finset Nat) :
    tablesNeeded pages = linkCount (pageLinks pages (largePages 2048)) :=
  (linkCount_eq (pageLinks_one _ _) rfl rfl).symm

/-- What the three loops leave, and what is left if the frames do not suffice. -/
theorem buildPml4_ends (hc : c.Lawful) (h : Placed s.ram cr3 kernel ramdiskPhys ramdiskSize)
    (hphys : scratchpadPhys < 2 ^ 52) :
    Ends (buildPml4 c cr3 scratchpadPhys kernel ramdiskPhys ramdiskSize) s
      (fun _ s' => MapsPages (plotOf s.ram cr3 hphys kernel ramdiskPhys ramdiskSize)
        (loaderPages kernel ramdiskSize) (largePages 2048) s'.ram s'.frames)
      (fun s' => s'.frames = [] ∧ (scratchFrames scratchpadPhys).length <
        tablesNeeded (loaderPages kernel ramdiskSize)) := by
  have hneeded := tablesNeeded_eq (loaderPages kernel ramdiskSize)
  have hpages : loaderPages kernel ramdiskSize =
      ∅ ∪ (kernelRun kernel).pages ∪ (ramdiskRun ramdiskPhys ramdiskSize).pages := by
    rw [Finset.empty_union]
    rfl
  -- whatever loop does not get its frames, all of them would have needed more
  have hfails : ∀ {small large : Finset Nat}, small ⊆ loaderPages kernel ramdiskSize →
      large ⊆ largePages 2048 → ∀ s' : PhysMem,
      s'.frames = [] ∧ (scratchFrames scratchpadPhys).length < linkCount (pageLinks small large) →
      s'.frames = [] ∧ (scratchFrames scratchpadPhys).length <
        tablesNeeded (loaderPages kernel ramdiskSize) := by
    intro small large hsmall hlarge s' hs'
    rw [hneeded]
    exact ⟨hs'.1, hs'.2.trans_le (pageLinks_mono hsmall hlarge)⟩
  unfold buildPml4 setupMappings
  rw [ends_bind, ends_setTable, ends_bind, ends_get, ends_bind, ends_setTable, ends_bind, setTable_cloned]
  show Ends _ { s with
      ram := clonedRam s.ram cr3 (newPml4 scratchpadPhys)
      frames := scratchFrames scratchpadPhys
      writes := _ } _ _
  rw [ends_bind]
  refine (mapRun_maps hc (kernel_plot h hphys) (fun page hpage => absurd hpage (Finset.notMem_empty _))
    (Finset.disjoint_empty_left _) (mapsPages_empty _)).mono (fun _ s₁ hs₁ => ?_) (hfails ?_ ?_)
  · -- an empty ramdisk is one of no pages
    have hdirect : ∀ s₂ : PhysMem, MapsPages (plotOf s.ram cr3 hphys kernel ramdiskPhys ramdiskSize)
        (loaderPages kernel ramdiskSize) ∅ s₂.ram s₂.frames →
        Ends (mapPhysicalMemory (newPml4 scratchpadPhys)) s₂
          (fun _ s' => MapsPages (plotOf s.ram cr3 hphys kernel ramdiskPhys ramdiskSize)
            (loaderPages kernel ramdiskSize) (largePages 2048) s'.ram s'.frames)
          (fun s' => s'.frames = [] ∧ (scratchFrames scratchpadPhys).length <
            tablesNeeded (loaderPages kernel ramdiskSize)) := by
      intro s₂ hs₂
      exact (mapPhysicalMemory_maps (direct_plot h hphys) hs₂).mono (fun _ _ h => h)
        (hfails (Finset.Subset.refl _) (Finset.Subset.refl _))
    have hramdisk := mapRun_maps hc (ramdisk_plot h hphys) (fun page hpage => h.canonical page (by
      rw [hpages]
      exact Finset.mem_union_left _ hpage)) (by rw [Finset.empty_union]; exact h.apart) hs₁
    rw [← hpages] at hramdisk
    by_cases hsize : ramdiskSize > 0
    · rw [if_pos hsize, ends_bind]
      exact hramdisk.mono (fun _ s₂ hs₂ => hdirect s₂ hs₂)
        (hfails (Finset.Subset.refl _) (Finset.empty_subset _))
    · rw [if_neg hsize]
      refine hdirect s₁ ?_
      have hnone : (ramdiskRun ramdiskPhys ramdiskSize).pages = ∅ := by
        rw [Nat.eq_zero_of_not_pos hsize]
        rfl
      rw [hpages, hnone, Finset.union_empty]
      exact hs₁
  · rw [hpages]
    exact Finset.subset_union_left
  · exact Finset.empty_subset _

end SetupLemmas

/-! ## Translation -/

/-- A kernel in the last 2 GiB and a ramdisk of less than 16 TiB, both in whole pages of physical memory. -/
structure HigherHalf (kernel : Uefi.LoadedKernel) (ramdiskPhys ramdiskSize : Nat) : Prop where
  virtual_aligned : 4096 ∣ kernel.virtualBase
  virtual_start : 0xFFFFFFFF80000000 ≤ kernel.virtualBase
  virtual_end : kernel.virtualBase + kernel.imageSize ≤ 2 ^ 64
  physical_aligned : 4096 ∣ kernel.physicalBase
  physical_end : kernel.physicalBase + pageCount kernel.imageSize * 4096 ≤ 2 ^ 52
  ramdisk_size : ramdiskSize < 2 ^ 44
  ramdisk_aligned : 4096 ∣ ramdiskPhys
  ramdisk_end : ramdiskPhys + pageCount ramdiskSize * 4096 ≤ 2 ^ 52

/-- A scratchpad of that many pages, in none of which the firmware has a table of the lower half. -/
structure FreshScratchpad (ram : Ram) (cr3 : Frame) (scratchpadPhys pages : Nat) : Prop where
  inside : scratchpadPhys + pages * 4096 ≤ 2 ^ 52
  fresh : ∀ page < 2 ^ 35, ∀ f ∈ walkTables ram 3 cr3 page,
    ¬ (scratchpadPhys / 4096 ≤ f.toNat ∧ f.toNat < scratchpadPhys / 4096 + pages)

/-- What the new PML4 translates: the pages of the kernel, those of the ramdisk and the direct map, and the
lower half as the firmware does. -/
structure Translated (ram : Ram) (cr3 : Frame) (ram' : Ram) (pml4 : Frame) (kernel : Uefi.LoadedKernel)
    (ramdiskPhys ramdiskSize : Nat) : Prop where
  kernel : ∀ v, kernel.virtualBase ≤ v → v < kernel.virtualBase + pageCount kernel.imageSize * 4096 →
    physAddr ram' pml4 v = some (kernel.physicalBase + (v - kernel.virtualBase))
  ramdisk : ∀ v, ramdiskVirtualBase ≤ v → v < ramdiskVirtualBase + pageCount ramdiskSize * 4096 →
    physAddr ram' pml4 v = some (ramdiskPhys + (v - ramdiskVirtualBase))
  direct : ∀ p < directMapEnd, physAddr ram' pml4 (physicalMemoryOffset + p) = some p
  lower : ∀ v < 2 ^ 47, walk ram' 3 pml4 (v / 4096) = walk ram 3 cr3 (v / 4096)

namespace SetupLemmas

variable {c : Mapper} {g : Plot} {small large : Finset Nat} {ram : Ram} {frames : List Frame} {s : PhysMem}
  {cr3 : Frame} {kernel : Uefi.LoadedKernel} {scratchpadPhys ramdiskPhys ramdiskSize pages : Nat}

/-- The pages of a run are translated. -/
theorem run_translated {r : PageRun} {virtualBase physicalBase : Nat}
    (hg : RunPlot g r virtualBase physicalBase) (haligned : 4096 ∣ physicalBase)
    (h : MapsPages g small large ram frames) (hsub : r.pages ⊆ small) {v : Nat} (hv : virtualBase ≤ v)
    (hv' : v < virtualBase + r.count * 4096) :
    physAddr ram g.root v = some (physicalBase + (v - virtualBase)) := by
  obtain ⟨a, hgrown, -, hleaves⟩ := h
  obtain ⟨i, hi⟩ : ∃ i, v / 4096 = r.page + i := ⟨v / 4096 - r.page, by
    have := hg.virtual
    omega⟩
  have hvirtual := hg.virtual
  have hphysical := hg.physical
  have hend := hg.physical_end
  have hcount : i < r.count := by omega
  have hleaf : position 0 (r.page + i) ∈ a.leaves 0 := by
    rw [hleaves]
    exact Finset.mem_image_of_mem _ (hsub (mem_pages.mpr ⟨i, hcount, rfl⟩))
  obtain ⟨tr, hwalk, hframe⟩ := hgrown.walk (Nat.zero_le 3) hleaf
    (by rw [hg.leaf i hcount]; exact kernelFlags_isPresent) (.inl rfl)
  rw [leafOf_zero_frame, hg.leaf i hcount] at hframe
  unfold physAddr
  rw [hi, hwalk, Option.map_some, hframe]
  show some ((BitVec.ofNat 40 (r.frame + i)).toNat * 4096 + v % 4096) = _
  rw [toNat_frame (by omega)]
  congr 1
  omega

/-- So is the direct map. -/
theorem direct_translated {pml4 : Frame} (hg : DirectPlot g pml4 small)
    (h : MapsPages g small (largePages 2048) ram frames) {p : Nat} (hp : p < directMapEnd) :
    physAddr ram pml4 (physicalMemoryOffset + p) = some p := by
  obtain ⟨a, hgrown, -, hleaves⟩ := h
  unfold directMapEnd at hp
  have hpage : (physicalMemoryOffset + p) / 4096 = directPage (p / 4096) := by
    unfold directPage physicalMemoryOffset
    omega
  have hposition := (position_directPage (n := p / 4096) (by omega)).2.2
  have hleaf : position 1 (directPage (p / 4096)) ∈ a.leaves 1 := by
    rw [hleaves, hposition]
    have hfirst := (position_directPage (n := p / 4096 / 512 * 512) (by omega)).2.2
    rw [Nat.mul_div_cancel _ (by decide)] at hfirst
    rw [← hfirst]
    refine Finset.mem_image_of_mem _ (Finset.mem_image_of_mem _ (Finset.mem_range.mpr (by omega)))
  have hentry := hg.leaf (p / 4096 / 512) (by omega)
  rw [← hposition] at hentry
  obtain ⟨tr, hwalk, hframe⟩ := hgrown.walk (by decide) hleaf
    (by rw [hentry]; exact hugeFlags_isPresent) (.inr ⟨by decide, by rw [hentry]; exact hugeFlags_isHuge⟩)
  rw [hentry] at hframe
  have hnumber : tr.frame = BitVec.ofNat 40 (p / 4096) := by
    rw [hframe]
    show BitVec.ofNat 40 (p / 4096 / 512 * 512) + BitVec.ofNat 40 (directPage (p / 4096) % 512 ^ 1) = _
    rw [← BitVec.ofNat_add]
    congr 1
    unfold directPage physicalMemoryOffset
    omega
  unfold physAddr
  rw [hpage, ← hg.root, hwalk, Option.map_some, hnumber, toNat_frame (by omega)]
  congr 1
  unfold physicalMemoryOffset
  omega

theorem higherHalf_pages (h : HigherHalf kernel ramdiskPhys ramdiskSize) {page : Nat}
    (hpage : page ∈ loaderPages kernel ramdiskSize) :
    2 ^ 52 - 2 ^ 19 ≤ page ∧ page < 2 ^ 52 ∨
      ramdiskVirtualBase / 4096 ≤ page ∧ page < ramdiskVirtualBase / 4096 + 2 ^ 32 := by
  obtain ⟨n, hn⟩ := h.virtual_aligned
  have hstart := h.virtual_start
  have hend := h.virtual_end
  have hsize := h.ramdisk_size
  rcases Finset.mem_union.mp hpage with hpage | hpage
  · obtain ⟨i, hi, rfl⟩ := mem_pages.mp hpage
    left
    unfold kernelRun pageCount at hi ⊢
    dsimp only at hi ⊢
    omega
  · obtain ⟨i, hi, rfl⟩ := mem_pages.mp hpage
    right
    unfold ramdiskRun pageCount at hi ⊢
    dsimp only at hi ⊢
    omega

theorem placed_of_higherHalf (h : HigherHalf kernel ramdiskPhys ramdiskSize) (ram : Ram) (cr3 : Frame) :
    Placed ram cr3 kernel ramdiskPhys ramdiskSize := by
  have hpages := fun page hpage => @higherHalf_pages _ _ _ h page hpage
  unfold ramdiskVirtualBase at hpages
  constructor
  case aligned => exact h.virtual_aligned
  case kernel_phys => exact h.physical_end
  case ramdisk_phys => exact h.ramdisk_end
  case canonical =>
    intro page hpage
    have := hpages page hpage
    rw [canonical_iff]
    omega
  case apart =>
    refine Finset.disjoint_left.mpr fun page hkernel hramdisk => ?_
    obtain ⟨n, hn⟩ := h.virtual_aligned
    have hstart := h.virtual_start
    have hsize := h.ramdisk_size
    obtain ⟨i, hi, rfl⟩ := mem_pages.mp hkernel
    obtain ⟨j, hj, heq⟩ := mem_pages.mp hramdisk
    unfold kernelRun ramdiskRun ramdiskVirtualBase at heq
    unfold ramdiskRun pageCount at hj
    dsimp only at heq hj
    omega
  case direct =>
    intro page hpage n hn
    have := hpages page hpage
    unfold directPage physicalMemoryOffset
    omega
  case free =>
    intro page hpage hlower
    have := hpages page hpage
    have hindex : page / 512 ^ 3 % 512 < 256 := hlower
    omega

/-- The frames of the tables are in the scratchpad. -/
theorem table_in_scratchpad (hphys : scratchpadPhys < 2 ^ 52)
    (hlarge : tablesNeeded (loaderPages kernel ramdiskSize) + 1 ≤ pages) {a : Growth}
    (hgrown : Grown (plotOf s.ram cr3 hphys kernel ramdiskPhys ramdiskSize) a ram frames)
    (hlinked : a.linked = pageLinks (loaderPages kernel ramdiskSize) (largePages 2048)) {l p : Nat}
    (hhas : a.Has (plotOf s.ram cr3 hphys kernel ramdiskPhys ramdiskSize) l p) :
    scratchpadPhys / 4096 ≤ (a.table l (p / 512)).toNat ∧
      (a.table l (p / 512)).toNat < scratchpadPhys / 4096 + pages := by
  rcases Nat.lt_or_ge l 3 with hl | hl
  · obtain ⟨taken, hframes, hlength, htaken⟩ := hgrown.taken
    rw [hlinked, ← tablesNeeded_eq] at hlength
    have hin := (mem_taken hframes).mp (htaken l p hl hhas)
    omega
  · rcases hhas with ⟨rfl, -⟩ | ⟨hl', -⟩
    · have hroot : a.table 3 (p / 512) = newPml4 scratchpadPhys := hgrown.root _
      rw [hroot, newPml4, toNat_frame (by omega)]
      omega
    · omega

/-! ### The number of tables -/

theorem position_higher {l page : Nat} (hstart : 2 ^ 52 - 2 ^ 36 ≤ page) (hend : page < 2 ^ 52) :
    position l page = (page - (2 ^ 52 - 2 ^ 36)) / 512 ^ l := by
  have hmod : page % 512 ^ 4 = page - (2 ^ 52 - 2 ^ 36) := by omega
  unfold position
  rw [hmod]

/-- The positions of consecutive pages are consecutive. -/
theorem run_positions {r : PageRun} (hstart : 2 ^ 52 - 2 ^ 36 ≤ r.page) (hend : r.page + r.count ≤ 2 ^ 52)
    (hcount : r.count ≠ 0) (l : Nat) :
    r.pages.image (position l) =
      Finset.Ico (position l r.page) (position l (r.page + r.count - 1) + 1) := by
  obtain ⟨n, hn⟩ := Nat.exists_eq_add_of_le hstart
  have hposition : ∀ i < r.count, position l (r.page + i) = (n + i) / 512 ^ l := by
    intro i hi
    rw [position_higher (by omega) (by omega), hn, Nat.add_assoc, Nat.add_sub_cancel_left]
  have hfirst : position l r.page = n / 512 ^ l := hposition 0 (by omega)
  have hlast : position l (r.page + r.count - 1) = (n + (r.count - 1)) / 512 ^ l := by
    rw [← hposition _ (by omega), Nat.add_sub_assoc (by omega)]
  have hpos : 0 < 512 ^ l := Nat.pow_pos (by decide)
  ext q
  simp only [Finset.mem_image, mem_pages, Finset.mem_Ico, hfirst, hlast, Nat.lt_succ_iff]
  constructor
  · rintro ⟨_, ⟨i, hi, rfl⟩, rfl⟩
    rw [hposition i hi]
    exact ⟨Nat.div_le_div_right (by omega), Nat.div_le_div_right (by omega)⟩
  · rintro ⟨hle, hge⟩
    rw [Nat.le_div_iff_mul_le hpos] at hge
    -- the first page of the run below this table
    refine ⟨r.page + (q * 512 ^ l - n), ⟨_, by omega, rfl⟩, ?_⟩
    rw [hposition _ (by omega)]
    rcases Nat.le_total n (q * 512 ^ l) with hn | hn
    · rw [Nat.add_sub_cancel' hn, Nat.mul_div_cancel _ hpos]
    · rw [Nat.sub_eq_zero_of_le hn]
      exact Nat.le_antisymm hle ((Nat.le_div_iff_mul_le hpos).mpr hn)

theorem card_run_positions {r : PageRun} (hstart : 2 ^ 52 - 2 ^ 36 ≤ r.page)
    (hend : r.page + r.count ≤ 2 ^ 52) (l : Nat) : (r.pages.image (position l)).card = r.tables l := by
  unfold PageRun.tables
  by_cases hcount : r.count = 0
  · rw [if_pos hcount, PageRun.pages, hcount]
    rfl
  · rw [if_neg hcount, run_positions hstart hend hcount, Nat.card_Ico]

/-- Pages that are not below the same entry of the PML4 have no table in common. -/
theorem disjoint_positions {A B : Finset Nat}
    (h : ∀ page ∈ A, ∀ page' ∈ B, position 3 page ≠ position 3 page') {l : Nat} (hl : l ≤ 3) :
    Disjoint (A.image (position l)) (B.image (position l)) := by
  refine Finset.disjoint_left.mpr fun q hA hB => ?_
  obtain ⟨page, hpage, rfl⟩ := Finset.mem_image.mp hA
  obtain ⟨page', hpage', heq⟩ := Finset.mem_image.mp hB
  exact h page hpage page' hpage' (position_eq_of_le hl heq).symm

theorem kernel_slot (h : HigherHalf kernel ramdiskPhys ramdiskSize) :
    ∀ page ∈ (kernelRun kernel).pages, position 3 page = 511 := by
  intro page hpage
  obtain ⟨n, hn⟩ := h.virtual_aligned
  have hstart := h.virtual_start
  have hend := h.virtual_end
  obtain ⟨i, hi, rfl⟩ := mem_pages.mp hpage
  unfold kernelRun pageCount at hi ⊢
  dsimp only at hi ⊢
  unfold position
  omega

theorem ramdisk_slots (h : HigherHalf kernel ramdiskPhys ramdiskSize) :
    ∀ page ∈ (ramdiskRun 0 ramdiskSize).pages, 288 ≤ position 3 page ∧ position 3 page < 320 := by
  intro page hpage
  have hsize := h.ramdisk_size
  obtain ⟨i, hi, rfl⟩ := mem_pages.mp hpage
  unfold ramdiskRun pageCount at hi ⊢
  unfold ramdiskVirtualBase position
  dsimp only at hi ⊢
  omega

theorem direct_slot : ∀ page ∈ largePages 2048, position 3 page = 256 := by
  intro page hpage
  have hin := Finset.mem_image_of_mem (position 3) hpage
  rwa [largePages_image.1, Finset.mem_singleton] at hin

theorem card_loader_positions (h : HigherHalf kernel ramdiskPhys ramdiskSize) {l : Nat} (hl : l ≤ 3) :
    ((loaderPages kernel ramdiskSize).image (position l)).card =
      (kernelRun kernel).tables l + (ramdiskRun 0 ramdiskSize).tables l := by
  have hkernel : ((kernelRun kernel).pages.image (position l)).card = (kernelRun kernel).tables l := by
    obtain ⟨n, hn⟩ := h.virtual_aligned
    have hstart := h.virtual_start
    have hend := h.virtual_end
    refine card_run_positions ?_ ?_ l
    · unfold kernelRun
      dsimp only
      omega
    · unfold kernelRun pageCount
      dsimp only
      omega
  have hramdisk : ((ramdiskRun 0 ramdiskSize).pages.image (position l)).card =
      (ramdiskRun 0 ramdiskSize).tables l := by
    have hsize := h.ramdisk_size
    refine card_run_positions (by decide : 2 ^ 52 - 2 ^ 36 ≤ ramdiskVirtualBase / 4096) ?_ l
    unfold ramdiskRun ramdiskVirtualBase pageCount
    dsimp only
    omega
  unfold loaderPages
  rw [Finset.image_union, Finset.card_union_of_disjoint, hkernel, hramdisk]
  refine disjoint_positions (fun page hpage page' hpage' => ?_) hl
  have := kernel_slot h page hpage
  have := ramdisk_slots h page' hpage'
  omega

/-- The tables of the kernel, those of the ramdisk and the five of the direct map. -/
theorem tablesNeeded_higherHalf (h : HigherHalf kernel ramdiskPhys ramdiskSize) :
    tablesNeeded (loaderPages kernel ramdiskSize) =
      (kernelRun kernel).tables 1 + (kernelRun kernel).tables 2 + (kernelRun kernel).tables 3 +
      ((ramdiskRun 0 ramdiskSize).tables 1 + (ramdiskRun 0 ramdiskSize).tables 2 +
        (ramdiskRun 0 ramdiskSize).tables 3) + 5 := by
  have hall : ∀ {l}, l ≤ 3 → ((loaderPages kernel ramdiskSize ∪ largePages 2048).image (position l)).card =
      (kernelRun kernel).tables l + (ramdiskRun 0 ramdiskSize).tables l +
        ((largePages 2048).image (position l)).card := by
    intro l hl
    rw [Finset.image_union, Finset.card_union_of_disjoint, card_loader_positions h hl]
    refine disjoint_positions (fun page hpage page' hpage' => ?_) hl
    have := direct_slot page' hpage'
    rcases Finset.mem_union.mp hpage with hpage | hpage
    · have := kernel_slot h page hpage
      omega
    · have := ramdisk_slots h page hpage
      omega
  have hfour : ({131072, 131073, 131074, 131075} : Finset Nat).card = 4 := by decide
  unfold tablesNeeded
  rw [card_loader_positions h (by decide), hall (by decide), hall (by decide), largePages_image.1,
    largePages_image.2, hfour, Finset.card_singleton]
  omega

/-- The lower half of the new PML4 stays as it was copied, and so do the tables of the firmware. -/
theorem lower_kept (hphys : scratchpadPhys < 2 ^ 52)
    (hfresh : FreshScratchpad s.ram cr3 scratchpadPhys pages)
    (hlarge : tablesNeeded (loaderPages kernel ramdiskSize) + 1 ≤ pages)
    (hupper : ∀ page ∈ loaderPages kernel ramdiskSize, 256 ≤ position 3 page)
    (h : MapsPages (plotOf s.ram cr3 hphys kernel ramdiskPhys ramdiskSize)
      (loaderPages kernel ramdiskSize) (largePages 2048) ram frames) {page : Nat} (hpage : page < 2 ^ 35) :
    walk ram 3 (newPml4 scratchpadPhys) page = walk s.ram 3 cr3 page := by
  obtain ⟨a, hgrown, hlinked, hleaves⟩ := h
  have hpml4 : (newPml4 scratchpadPhys).toNat = scratchpadPhys / 4096 := by
    unfold newPml4
    rw [toNat_frame (by omega)]
  have hne : ∀ f ∈ walkTables s.ram 3 cr3 page, f ≠ newPml4 scratchpadPhys := by
    rintro f hf rfl
    exact hfresh.fresh page hpage _ hf (by omega)
  have hlower := index_lower hpage
  have hcopied : clonedRam s.ram cr3 (newPml4 scratchpadPhys) (newPml4 scratchpadPhys) (index 3 page) =
      s.ram cr3 (index 3 page) := by
    unfold clonedRam
    rw [Ram.setTable_self, if_pos hlower, Ram.setTable_of_ne (hne cr3 (head_mem_walkTables _ _ _))]
  refine walk_of_walkTables ?_ fun f hf => funext fun j => ?_
  · rw [← hcopied, ← ofNat_position (Nat.le_refl 3) page]
    have hposition : position 3 page < 256 := by
      have hsucc := position_succ page (Nat.le_refl 3)
      rw [position_root] at hsucc
      omega
    by_cases hslot : (plotOf s.ram cr3 hphys kernel ramdiskPhys ramdiskSize).slots
        (Fin.ofNat 512 (position 3 page))
    · -- an entry that the firmware does not use, and that is used for no page
      have hhas : a.Has (plotOf s.ram cr3 hphys kernel ramdiskPhys ramdiskSize) 3 (position 3 page) :=
        .inl ⟨rfl, by omega, hslot⟩
      have hbare := hgrown.bare 3 _ hhas (fun hin => ?_) (by rw [hleaves]; exact Finset.notMem_empty _)
      · unfold Growth.entry at hbare
        rw [hgrown.root] at hbare
        exact hbare.trans hslot.symm
      · rw [hlinked] at hin
        obtain ⟨q, hq, heq⟩ := Finset.mem_image.mp hin
        rcases Finset.mem_union.mp hq with hq | hq
        · have := hupper q hq
          omega
        · obtain ⟨i, hi, rfl⟩ := Finset.mem_image.mp hq
          have hi := Finset.mem_range.mp hi
          have := (position_directPage (n := i * 512) (by omega)).1
          omega
    · refine hgrown.rest _ _ fun l p hhas heq => ?_
      rcases hhas with ⟨rfl, hp, hslot'⟩ | ⟨hl, hp⟩
      · exact hslot (heq.2 ▸ hslot')
      · obtain ⟨taken, hframes, -, htaken⟩ := hgrown.taken
        have hin := (mem_taken hframes).mp (htaken l p hl (.inr ⟨hl, hp⟩))
        rw [← heq.1] at hin
        omega
  · have hf := List.mem_of_mem_tail hf
    have hrest := hgrown.rest f j fun l p hhas heq =>
      hfresh.fresh page hpage f hf (heq.1 ▸ table_in_scratchpad hphys hlarge hgrown hlinked hhas)
    exact hrest.trans (congrFun (clonedRam_of_ne (hne f hf)) j)

end SetupLemmas

open SetupLemmas

/-- The mappings of the loader. If the scratchpad has a page for the PML4 and for each table, then
`setup_mappings` does not panic, and the new PML4 translates the pages of the kernel and of the ramdisk to
their memory, the direct map, and the lower half as before. -/
theorem loader_mappings {c : Mapper} (hc : c.Lawful) {s : PhysMem} {cr3 : Frame}
    {kernel : Uefi.LoadedKernel} {scratchpadPhys ramdiskPhys ramdiskSize pages : Nat}
    (h : HigherHalf kernel ramdiskPhys ramdiskSize) (hfresh : FreshScratchpad s.ram cr3 scratchpadPhys pages)
    (hlarge : tablesNeeded (loaderPages kernel ramdiskSize) + 1 ≤ pages) :
    ∃ s', (buildPml4 c cr3 scratchpadPhys kernel ramdiskPhys ramdiskSize).result s = some ((), s') ∧
      Translated s.ram cr3 s'.ram (newPml4 scratchpadPhys) kernel ramdiskPhys ramdiskSize := by
  have hinside := hfresh.inside
  have hphys : scratchpadPhys < 2 ^ 52 := by omega
  have hplaced := placed_of_higherHalf h s.ram cr3
  have hends : Ends (buildPml4 c cr3 scratchpadPhys kernel ramdiskPhys ramdiskSize) s _ fun _ => False :=
    (buildPml4_ends hc hplaced hphys).mono (fun _ _ h => h) fun s' hs' => by
      have hlt := hs'.2
      rw [scratchFrames_length] at hlt
      omega
  obtain ⟨_, s', hresult, hmaps⟩ := hends.total
  refine ⟨s', hresult, ?_⟩
  constructor
  case kernel =>
    exact fun v hv hv' => run_translated (kernel_plot hplaced hphys) h.physical_aligned hmaps
      Finset.subset_union_left hv hv'
  case ramdisk =>
    exact fun v hv hv' => run_translated (ramdisk_plot hplaced hphys) h.ramdisk_aligned hmaps
      Finset.subset_union_right hv hv'
  case direct => exact fun p hp => direct_translated (direct_plot hplaced hphys) hmaps hp
  case lower =>
    intro v hv
    refine lower_kept hphys hfresh hlarge (fun page hpage => ?_) hmaps (by omega)
    have hpages := higherHalf_pages h hpage
    unfold ramdiskVirtualBase at hpages
    unfold position
    omega

/-- A kernel of two pages. -/
def smallKernel : Uefi.LoadedKernel := ⟨0xFFFFFFFF80000000, 0xFFFFFFFF80000000, 0x200000, 5000⟩

theorem smallKernel_higherHalf : HigherHalf smallKernel 0x400000 100 := by
  constructor <;> decide

/-- With no table of the firmware, in a memory of zeros. -/
theorem loader_mappings_small :
    ∃ s', (buildPml4 plainMapper 1 0x800000 smallKernel 0x400000 100).result blankBoot = some ((), s') ∧
      physAddr s'.ram 0x800 0xFFFFFFFF80001234 = some 0x201234 ∧
      physAddr s'.ram 0x800 0xFFFF900000000007 = some 0x400007 ∧
      physAddr s'.ram 0x800 0xFFFF8000FFFFFFFF = some 0xFFFFFFFF := by
  have hfresh : FreshScratchpad blankBoot.ram 1 0x800000 256 := by
    refine ⟨by decide, fun page _ f hf => ?_⟩
    rw [walkTables_unused rfl, List.mem_singleton] at hf
    rw [hf]
    decide
  have hlarge : tablesNeeded (loaderPages smallKernel 100) + 1 ≤ 256 := by
    rw [tablesNeeded_higherHalf smallKernel_higherHalf]
    decide
  obtain ⟨s', hresult, htranslated⟩ :=
    loader_mappings plainMapper_lawful smallKernel_higherHalf hfresh hlarge
  refine ⟨s', hresult, ?_, ?_, ?_⟩
  · exact htranslated.kernel 0xFFFFFFFF80001234 (by decide) (by decide)
  · exact htranslated.ramdisk 0xFFFF900000000007 (by decide) (by decide)
  · exact htranslated.direct 0xFFFFFFFF (by decide)

end Turnix
