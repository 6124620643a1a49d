import Turnix.SetupMappings

/-!
# The scratchpad of the loader

`main` of `boot/uefi-loader/src/main.rs` allocates 256 pages for the page tables, and the allocator that
`setup_mappings` makes of them counts up from the second page without an end. As the pages of the kernel and of
the ramdisk take a table for each 2 MiB, 256 pages are enough for less than 500 MiB of both together.

`taken_iff` gives the frames that are taken, from the sizes alone.
-/

namespace Turnix

open Lib Lib.Paging PanicM SetupLemmas

/-- `scratchpad_pages` of `main`. -/
def scratchpadPages : Nat := 256

/-- All frames that `setup_mappings` takes lie inside the pages that `main` has allocated. -/
def ScratchpadSuffices (c : Mapper) (cr3 : Frame) (scratchpadPhys : Nat) (kernel : Uefi.LoadedKernel)
    (ramdiskPhys ramdiskSize : Nat) (s : PhysMem) : Prop :=
  ∀ f ∈ scratchFrames scratchpadPhys,
    f ∉ (buildPml4 c cr3 scratchpadPhys kernel ramdiskPhys ramdiskSize s).2.frames →
    (frameSpan f).Within ⟨scratchpadPhys, scratchpadPages * 4096⟩

namespace ScratchpadLemmas

variable {c : Mapper} {s : PhysMem} {cr3 f : Frame} {kernel : Uefi.LoadedKernel}
  {scratchpadPhys ramdiskPhys ramdiskSize : Nat}

/-- The frames that are taken follow the PML4, as many as there are tables. If there are not so many,
all are taken. -/
theorem taken_iff (hc : c.Lawful) (h : Placed s.ram cr3 kernel ramdiskPhys ramdiskSize)
    (hphys : scratchpadPhys < 2 ^ 52) (hf : f ∈ scratchFrames scratchpadPhys) :
    f ∉ (buildPml4 c cr3 scratchpadPhys kernel ramdiskPhys ramdiskSize s).2.frames ↔
      f.toNat ≤ scratchpadPhys / 4096 + tablesNeeded (loaderPages kernel ramdiskSize) := by
  have hgt := mem_scratchFrames.mp hf
  have hends : Ends (buildPml4 c cr3 scratchpadPhys kernel ramdiskPhys ramdiskSize) s
      (fun _ s' => f ∉ s'.frames ↔
        f.toNat ≤ scratchpadPhys / 4096 + tablesNeeded (loaderPages kernel ramdiskSize))
      (fun s' => f ∉ s'.frames ↔
        f.toNat ≤ scratchpadPhys / 4096 + tablesNeeded (loaderPages kernel ramdiskSize)) := by
    refine (buildPml4_ends hc h hphys).mono (fun _ s' hmaps => ?_) (fun s' hs' => ?_)
    · obtain ⟨a, hgrown, hlinked, -⟩ := hmaps
      obtain ⟨taken, hframes, hlength, -⟩ := hgrown.taken
      have hsplit : scratchFrames scratchpadPhys = taken ++ s'.frames := hframes
      rw [hlinked, ← tablesNeeded_eq] at hlength
      have hnodup := scratchFrames_nodup scratchpadPhys
      rw [hsplit] at hnodup hf
      have htaken := mem_taken hsplit (f := f)
      rw [hlength] at htaken
      constructor
      · intro hrest
        exact (htaken.mp ((List.mem_append.mp hf).resolve_right hrest)).2
      · intro hle hrest
        exact List.disjoint_of_nodup_append hnodup (htaken.mpr ⟨hgt, hle⟩) hrest
    · obtain ⟨hnil, hfew⟩ := hs'
      rw [scratchFrames_length] at hfew
      have hlt := f.isLt
      rw [hnil]
      exact ⟨fun _ => by omega, fun _ => List.not_mem_nil⟩
  exact hends.always

/-- The first frame behind the scratchpad. -/
theorem first_outside (haligned : 4096 ∣ scratchpadPhys)
    (hroom : scratchpadPhys + scratchpadPages * 4096 < 2 ^ 52) :
    ∃ f : Frame, f.toNat = scratchpadPhys / 4096 + scratchpadPages ∧ f ∈ scratchFrames scratchpadPhys ∧
      ¬ (frameSpan f).Within ⟨scratchpadPhys, scratchpadPages * 4096⟩ := by
  obtain ⟨n, rfl⟩ := haligned
  unfold scratchpadPages at hroom ⊢
  have hnumber : (BitVec.ofNat 40 (4096 * n / 4096 + 256)).toNat = 4096 * n / 4096 + 256 := by
    rw [toNat_frame (by omega)]
  refine ⟨_, hnumber, mem_scratchFrames.mpr (by omega), ?_⟩
  unfold Span.Within frameSpan
  rw [hnumber]
  dsimp only
  omega

end ScratchpadLemmas

open ScratchpadLemmas

/-- The scratchpad suffices if and only if there are at most 255 tables below the PML4. At the end of physical
memory there is nothing behind it to be taken. -/
theorem scratchpad_suffices_iff {c : Mapper} (hc : c.Lawful) {s : PhysMem} {cr3 : Frame}
    {kernel : Uefi.LoadedKernel} {scratchpadPhys ramdiskPhys ramdiskSize : Nat}
    (h : Placed s.ram cr3 kernel ramdiskPhys ramdiskSize) (haligned : 4096 ∣ scratchpadPhys)
    (hinside : scratchpadPhys + scratchpadPages * 4096 ≤ 2 ^ 52) :
    ScratchpadSuffices c cr3 scratchpadPhys kernel ramdiskPhys ramdiskSize s ↔
      tablesNeeded (loaderPages kernel ramdiskSize) < scratchpadPages ∨
        scratchpadPhys + scratchpadPages * 4096 = 2 ^ 52 := by
  have hpages : scratchpadPages = 256 := rfl
  have hphys : scratchpadPhys < 2 ^ 52 := by omega
  constructor
  · intro hsuffices
    refine (Nat.lt_or_eq_of_le hinside).imp_left fun hroom => ?_
    obtain ⟨f, hnumber, hf, houtside⟩ := first_outside haligned hroom
    have hkept := mt (hsuffices f hf) houtside
    rw [taken_iff hc h hphys hf, hnumber] at hkept
    exact Nat.lt_of_add_lt_add_left (Nat.lt_of_not_le hkept)
  · intro hcases f hf htaken
    have hle := (taken_iff hc h hphys hf).mp htaken
    have hgt := mem_scratchFrames.mp hf
    have hlt := f.isLt
    obtain ⟨n, rfl⟩ := haligned
    unfold Span.Within frameSpan
    dsimp only
    omega

/-- A kernel of two pages and a ramdisk of 100 bytes need eleven tables. -/
theorem scratchpad_suffices_small :
    ScratchpadSuffices plainMapper 1 0x800000 smallKernel 0x400000 100 blankBoot := by
  refine (scratchpad_suffices_iff plainMapper_lawful (placed_of_higherHalf smallKernel_higherHalf _ _)
    (by decide) (by decide)).mpr (.inl ?_)
  rw [tablesNeeded_higherHalf smallKernel_higherHalf]
  decide

/-- An image of one segment of five bytes, at the address of the kernel. -/
def highKernel : List UInt8 :=
  programElf 0xFFFFFFFF80000000 [⟨1, 5, 120, 0xFFFFFFFF80000000, 0, 3, 5, 4096⟩] [11, 12, 13]

/-- Where `load_kernel` puts it. -/
def highLoaded : Uefi.LoadedKernel := ⟨0xFFFFFFFF80000000, 0xFFFFFFFF80000000, 0x200000, 5⟩

/-- With a ramdisk of 512 MiB there are 266 tables, and the page right behind the scratchpad is one of
them. -/
theorem scratchpad_overrun :
    (Uefi.loadKernel (fun _ => .ok 0x200000) highKernel ⟨fun _ => 0xAA, []⟩).1 = some (.ok highLoaded) ∧
    (0x900 : Frame) ∈ scratchFrames 0x800000 ∧
    (0x900 : Frame) ∉ (buildPml4 plainMapper 1 0x800000 highLoaded 0x10000000 0x20000000 blankBoot).2.frames ∧
    ¬ (frameSpan 0x900).Within ⟨0x800000, scratchpadPages * 4096⟩ ∧
    ¬ ScratchpadSuffices plainMapper 1 0x800000 highLoaded 0x10000000 0x20000000 blankBoot := by
  have hhigher : HigherHalf highLoaded 0x10000000 0x20000000 := by
    constructor <;> decide
  have hin : (0x900 : Frame) ∈ scratchFrames 0x800000 := mem_scratchFrames.mpr (by decide)
  have htables : tablesNeeded (loaderPages highLoaded 0x20000000) = 266 := by
    rw [tablesNeeded_higherHalf hhigher]
    decide
  have htaken : (0x900 : Frame) ∉
      (buildPml4 plainMapper 1 0x800000 highLoaded 0x10000000 0x20000000 blankBoot).2.frames := by
    refine (taken_iff plainMapper_lawful (placed_of_higherHalf hhigher _ _) (by decide) hin).mpr ?_
    rw [htables]
    decide
  have houtside : ¬ (frameSpan 0x900).Within ⟨0x800000, scratchpadPages * 4096⟩ := by decide
  exact ⟨by decide +kernel, hin, htaken, houtside, fun h => houtside (h _ hin htaken)⟩

end Turnix
