import Turnix.ForkIsolation
import Turnix.LoadPanics

/-!
# Stale memory

The loader takes frames from the allocator and does not clear them. A byte of a new page that no segment
covers is what the frame contained before: the stack, and what is before and after a segment in its first and
its last page. So what a new process can read depends on the former contents of the free frames, unless the
segments cover every byte of their pages and of the stack (`stale_memory_iff`).
-/

namespace Turnix

open Lib Lib.Paging PanicM RegionLemmas ImageLemmas LoaderLemmas IsolationLemmas PanicLemmas ForkLemmas

/-- From `s`, and from a state that differs in what is in the free frames, the loader makes address spaces
in which ring 3 reads the same. -/
def NoStaleMemory (c : Mapper) (data : List UInt8) (cr3 : Frame) (s : PhysMem) : Prop :=
  ∀ ram₂ : Ram, (∀ f, f ∉ s.frames → ram₂ f = s.ram f) → ∀ p₁ s₁ p₂ s₂,
    (Process.newFromElf c cr3 data).result s = some (.ok p₁, s₁) →
    (Process.newFromElf c cr3 data).result { s with ram := ram₂ } = some (.ok p₂, s₂) →
    ∀ va, canonical va = true → userRead p₁.pml4 s₁.ram va = userRead p₂.pml4 s₂.ram va

/-- The PML4 of the kernel is not free, and ring 3 has no access to its upper half. -/
structure SupervisorOnly (cr3 : Frame) (s : PhysMem) : Prop where
  root : cr3 ∉ s.frames
  upper : ∀ i : Fin 512, 256 ≤ i.val → (s.ram cr3 i).flags.isUser = false

/-- The segments cover every byte of their pages and of the stack. -/
def CoverPages (phs : List ProgramHeader) : Prop :=
  ∀ va, (StackPage (va / 4096) ∨ ∃ ph ∈ phs, ph.Touches (va / 4096)) → ∃ ph ∈ phs, ph.Covers va

namespace StaleLemmas

variable {c : Mapper} {cr3 pml4 : Frame} {frames : List Frame} {s₀ s s' : PhysMem} {kind : Frame → Kind}
  {a : AddressSpace} {data : List UInt8} {process : Process} {va : Nat}

/-! ## The bytes of an image -/

theorem bytes_foldl {phs : List ProgramHeader} (va : Nat) : ∀ {a : AddressSpace},
    (phs.foldl (AddressSpace.loadSegment data) a).bytes va = (imageBytes data phs va).or (a.bytes va) := by
  induction phs with
  | nil => exact fun {a} => (Option.none_or).symm
  | cons ph phs ih =>
    intro a
    rw [List.foldl_cons, ih]
    show (imageBytes data phs va).or ((ph.bytes data va).or (a.bytes va)) =
      ((imageBytes data phs va).or (ph.bytes data va)).or (a.bytes va)
    rw [Option.or_assoc]

theorem imageBytes_ne_none {phs : List ProgramHeader} {ph : ProgramHeader} (hph : ph ∈ phs)
    (hva : ph.Covers va) : imageBytes data phs va ≠ none := by
  induction phs with
  | nil => exact absurd hph List.not_mem_nil
  | cons q phs ih =>
    unfold imageBytes
    rw [ne_eq, Option.or_eq_none_iff]
    rintro ⟨hrest, hfirst⟩
    rcases List.mem_cons.mp hph with rfl | hph
    · rw [bytes_of_covers hva] at hfirst
      cases hfirst
    · exact ih hph hrest

/-- A byte has been written exactly if a segment covers it. -/
theorem bytes_load_eq_none_iff {phs : List ProgramHeader} :
    (AddressSpace.load data phs).bytes va = none ↔ ∀ ph ∈ phs, ¬ ph.Covers va := by
  unfold AddressSpace.load
  rw [bytes_foldl]
  show (imageBytes data phs va).or none = none ↔ _
  rw [Option.or_none]
  exact ⟨fun h ph hph hva => imageBytes_ne_none hph hva h, imageBytes_eq_none⟩

theorem flags_load_ne_none_iff {phs : List ProgramHeader} (hmem : ∀ ph ∈ phs, 0 < ph.memorySize)
    {page : Nat} : (AddressSpace.load data phs).flags page ≠ none ↔
      StackPage page ∨ ∃ ph ∈ phs, ph.Touches page := by
  rw [flags_load hmem]
  by_cases hstack : StackPage page
  · rw [if_pos hstack]
    exact ⟨fun _ => .inl hstack, fun _ => Option.some_ne_none _⟩
  · rw [if_neg hstack, ne_eq, Option.map_eq_none_iff, firstTouching, List.find?_eq_none]
    simp [hstack]

/-! ## What ring 3 reads -/

/-- All pages of the lower half can be read. -/
theorem userRead_lower (h : Represents cr3 pml4 frames s₀ kind s a) (hva : va < 2 ^ 47) :
    userRead pml4 s.ram va = readByte s.ram pml4 va := by
  unfold userRead readByte
  rcases hw : walk s.ram 3 pml4 (va / 4096) with _ | tr
  · rfl
  · have huser := h.user.walk h.shape (Nat.le_refl 3) (h.holds (by omega)) hw
    dsimp only
    rw [if_pos huser]
    rfl

/-- No page of the upper half can be read. -/
theorem userRead_upper (hkernel : SupervisorOnly cr3 s₀) (h : Represents cr3 pml4 frames s₀ kind s a)
    (hva : 256 ≤ (index 3 (va / 4096)).val) : userRead pml4 s.ram va = none := by
  unfold userRead
  rcases hw : walk s.ram 3 pml4 (va / 4096) with _ | tr
  · rfl
  · dsimp only
    refine if_neg fun huser => ?_
    have hroot := user_of_root hw huser
    rw [h.loading.2.kept pml4 _ rootOnly_self fun hslot => Nat.not_lt.mpr hva hslot.2] at hroot
    have hentry : (created cr3 pml4 frames s₀).ram pml4 (index 3 (va / 4096)) =
        newPml4 s₀.ram cr3 pml4 (index 3 (va / 4096)) := congrFun (Ram.setTable_self _ _ _) _
    rw [hentry] at hroot
    unfold newPml4 at hroot
    by_cases hcr3 : cr3 ≠ pml4
    · rw [if_pos ⟨hva, hcr3⟩, hkernel.upper _ hva] at hroot
      cases hroot
    · rw [if_neg fun hboth => hcr3 hboth.2] at hroot
      cases hroot

/-- If the segments cover their pages and the stack, what is read depends on the image only. -/
theorem userRead_of_covers (hkernel : SupervisorOnly cr3 s) (h : LoadedSpace data cr3 s process s')
    (hcovers : CoverPages (elfSegments data)) (hva : canonical va = true) :
    userRead process.pml4 s'.ram va =
      if va < 2 ^ 47 then (AddressSpace.load data (elfSegments data)).bytes va else none := by
  obtain ⟨frames, kind, hspace⟩ := h.space
  by_cases hlow : va < 2 ^ 47
  · rw [if_pos hlow, userRead_lower hspace hlow]
    rcases hbytes : (AddressSpace.load data (elfSegments data)).bytes va with _ | b
    · -- the page is not mapped, as all of it would be covered
      have hflags : (AddressSpace.load data (elfSegments data)).flags (va / 4096) = none := by
        by_contra hne
        obtain ⟨ph, hph, hva'⟩ := hcovers va
          ((flags_load_ne_none_iff fun ph hph => memorySize_pos hph).mp hne)
        exact bytes_load_eq_none_iff.mp hbytes ph hph hva'
      rw [← hspace.flags _ (by omega), Option.map_eq_none_iff] at hflags
      rw [readByte_eq_view, hflags]
      rfl
    · exact hspace.bytes va hlow b hbytes
  · rw [if_neg hlow]
    have hupper := (canonical_iff.mp hva).resolve_left hlow
    exact userRead_upper hkernel hspace (index_upper hupper.1 hupper.2)

/-! ## A state with many frames -/

/-- An image whose addresses fit is loaded from every state with enough frames. -/
theorem newFromElf_returns (hc : c.Lawful) (hnodup : s.frames.Nodup) (hlength : 2 ^ 38 ≤ s.frames.length)
    (hheader : ∃ header, parseHeader data = .ok header ∧ canonical header.entry = true ∧
      tableResult data header header.programHeaderCount 0 = .ok ())
    (hfits : ∀ ph ∈ elfSegments data, ph.Fits) :
    ∃ process s', (Process.newFromElf c cr3 data).result s = some (.ok process, s') := by
  obtain ⟨header, hheader, hentry, htable⟩ := hheader
  obtain ⟨r, s', hresult, process, rfl⟩ := ((ends_newFromElf_fits hc hnodup hheader hentry hfits).mono
    (fun _ _ h => h) fun _ hend => not_exhausted hlength hend).total
  rw [htable] at hresult
  exact ⟨process, s', hresult⟩

/-- A byte of a page that no segment covers is one that was in a free frame. -/
theorem userRead_stale (h : LoadedSpace data cr3 s process s') (hlow : va < 2 ^ 47)
    (hpage : StackPage (va / 4096) ∨ ∃ ph ∈ elfSegments data, ph.Touches (va / 4096))
    (huncovered : ∀ ph ∈ elfSegments data, ¬ ph.Covers va) :
    ∃ f ∈ s.frames, userRead process.pml4 s'.ram va = some (s.ram.byte f (va % 4096)) := by
  obtain ⟨frames, kind, hspace⟩ := h.space
  have hflags : (AddressSpace.load data (elfSegments data)).flags (va / 4096) ≠ none :=
    (flags_load_ne_none_iff fun ph hph => memorySize_pos hph).mpr hpage
  rw [← hspace.flags _ (by omega), ne_eq, Option.map_eq_none_iff] at hflags
  obtain ⟨⟨f, fl⟩, hview⟩ := Option.ne_none_iff_exists'.mp hflags
  refine ⟨f, ?_, ?_⟩
  · exact Loading.taken hspace.loading (ne_other_of_data (hspace.kind_data (by omega) hview))
  · rw [userRead_lower hspace hlow]
    exact hspace.stale va hlow (bytes_load_eq_none_iff.mpr huncovered) f fl hview

/-- Without page tables, ring 3 has access to nothing. -/
theorem supervisorOnly_unused (h : cr3 ∉ frames) :
    SupervisorOnly cr3 ⟨fun _ _ => .unused, frames, [], [], []⟩ := by
  refine ⟨h, fun i _ => ?_⟩
  show Entry.unused.flags.isUser = false
  decide

/-- A word with all bits set. -/
def ones : Entry := ⟨⟨0xFFF, 0xFFF⟩, 0xFFFFFFFFFF⟩

theorem byte_unused : ∀ k < 8, Entry.unused.byte k = 0 := by decide

theorem byte_ones : ∀ k < 8, ones.byte k = 255 := by decide

/-- Two states with zeros and with ones in the free frames tell a byte that no segment covers. -/
theorem exists_stale (hc : c.Lawful) (hstart : ∀ ph ∈ elfSegments data, ph.virtualAddress < 2 ^ 47)
    (h : LoadedSpace data cr3 s process s')
    (hpage : StackPage (va / 4096) ∨ ∃ ph ∈ elfSegments data, ph.Touches (va / 4096))
    (huncovered : ∀ ph ∈ elfSegments data, ¬ ph.Covers va) :
    ∃ cr3 s, s.frames.Nodup ∧ SupervisorOnly cr3 s ∧ ¬ NoStaleMemory c data cr3 s := by
  have hva : va < 2 ^ 47 := by
    rcases hpage with hstack | ⟨ph, hph, -, -, hle⟩
    · have := hstack.2
      omega
    · have hfits := h.fits ph hph
      unfold ProgramHeader.Fits at hfits
      omega
  obtain ⟨frames, hnodup, hlength, htwo⟩ := exists_frames
  have hmany : 2 ^ 38 ≤ frames.length := Nat.le_of_eq hlength.symm
  have hzero : 0 ∉ frames := fun hin => absurd (htwo 0 hin) (by decide)
  refine ⟨0, ⟨fun _ _ => .unused, frames, [], [], []⟩, hnodup, supervisorOnly_unused hzero, fun hclean => ?_⟩
  obtain ⟨p₁, s₁, hload₁⟩ := @newFromElf_returns c 0 ⟨fun _ _ => .unused, frames, [], [], []⟩ data
    hc hnodup hmany h.header h.fits
  obtain ⟨p₂, s₂, hload₂⟩ := @newFromElf_returns c 0
    ⟨fun f _ => if f ∈ frames then ones else .unused, frames, [], [], []⟩ data
    hc hnodup hmany h.header h.fits
  obtain ⟨f₁, -, hread₁⟩ := userRead_stale (newFromElf_loaded hc hnodup hload₁ hstart) hva hpage huncovered
  obtain ⟨f₂, hf₂, hread₂⟩ := userRead_stale (newFromElf_loaded hc hnodup hload₂ hstart) hva hpage huncovered
  have hsame := hclean (fun f _ => if f ∈ frames then ones else .unused)
    (fun f hf => funext fun _ => if_neg hf) p₁ s₁ p₂ s₂ hload₁ hload₂ va (canonical_iff.mpr (.inl hva))
  have hk : va % 4096 % 8 < 8 := Nat.mod_lt _ (by decide)
  have hbyte₁ : Ram.byte (fun _ _ => .unused) f₁ (va % 4096) = 0 := byte_unused _ hk
  have hbyte₂ : Ram.byte (fun f _ => if f ∈ frames then ones else .unused) f₂ (va % 4096) = 255 := by
    unfold Ram.byte
    dsimp only at hf₂ ⊢
    rw [if_pos hf₂]
    exact byte_ones _ hk
  rw [hread₁, hread₂] at hsame
  dsimp only at hsame
  rw [hbyte₁, hbyte₂] at hsame
  exact absurd hsame (by decide)

end StaleLemmas

open StaleLemmas

/-- Consider an image that can be loaded, with segments in the lower half. What a new process can read never
depends on what was in the free frames exactly if the segments cover every byte of their pages and of the
stack. -/
theorem stale_memory_iff {c : Mapper} (hc : c.Lawful) {data : List UInt8} (hlow : LowSegments data)
    {cr3 : Frame} {s s' : PhysMem} {process : Process} (hnodup : s.frames.Nodup)
    (hload : (Process.newFromElf c cr3 data).result s = some (.ok process, s')) :
    (∀ cr3 s, s.frames.Nodup → SupervisorOnly cr3 s → NoStaleMemory c data cr3 s) ↔
      CoverPages (elfSegments data) := by
  have hstart : ∀ ph ∈ elfSegments data, ph.virtualAddress < 2 ^ 47 := by
    intro ph hph
    have hle := hlow ph hph
    have hmem := memorySize_pos hph
    omega
  constructor
  · intro hclean va hpage
    by_contra hnot
    have huncovered : ∀ ph ∈ elfSegments data, ¬ ph.Covers va := fun ph hph hva => hnot ⟨ph, hph, hva⟩
    obtain ⟨cr3', s₀, hnodup', hkernel, hstale⟩ :=
      exists_stale hc hstart (newFromElf_loaded hc hnodup hload hstart) hpage huncovered
    exact hstale (hclean cr3' s₀ hnodup' hkernel)
  · intro hcovers cr3 s hnodup hkernel ram₂ hagree p₁ s₁ p₂ s₂ hload₁ hload₂ va hva
    have hkernel₂ : SupervisorOnly cr3 { s with ram := ram₂ } := by
      refine ⟨hkernel.root, fun i hi => ?_⟩
      dsimp only
      rw [hagree cr3 hkernel.root]
      exact hkernel.upper i hi
    have hloaded₁ : LoadedSpace data cr3 s p₁ s₁ := newFromElf_loaded hc hnodup hload₁ hstart
    have hnodup₂ : ({ s with ram := ram₂ } : PhysMem).frames.Nodup := hnodup
    have hloaded₂ : LoadedSpace data cr3 { s with ram := ram₂ } p₂ s₂ :=
      newFromElf_loaded hc hnodup₂ hload₂ hstart
    rw [userRead_of_covers hkernel hloaded₁ hcovers hva, userRead_of_covers hkernel₂ hloaded₂ hcovers hva]

/-- An image with one segment, without bytes in the file, that is the stack. -/
def stackElf : List UInt8 := programElf 0x700000000000 [⟨1, 6, 120, 0x700000000000, 0, 0, 32768, 4096⟩] []

theorem stackElf_segments : elfSegments stackElf = [⟨120, 0x700000000000, 0, 0, 32768, 6, 4096⟩] := by
  decide +kernel

theorem stackElf_covers : CoverPages (elfSegments stackElf) := by
  intro va hpage
  rw [stackElf_segments] at hpage ⊢
  refine ⟨_, List.mem_singleton_self _, ?_⟩
  have hva : 0x700000000 ≤ va / 4096 ∧ va / 4096 < 0x700000008 := by
    rcases hpage with hstack | ⟨ph, hph, htouch⟩
    · exact hstack
    · rw [List.mem_singleton.mp hph] at htouch
      unfold ProgramHeader.Touches at htouch
      dsimp only at htouch
      omega
  constructor <;> dsimp only <;> omega

theorem stale_memory_stack :
    (∃ cr3 s process s', s.frames.Nodup ∧ SupervisorOnly cr3 s ∧
      (Process.newFromElf plainMapper cr3 stackElf).result s = some (.ok process, s')) ∧
    ∀ cr3 s, s.frames.Nodup → SupervisorOnly cr3 s → NoStaleMemory plainMapper stackElf cr3 s := by
  obtain ⟨frames, hnodup, hlength, htwo⟩ := exists_frames
  have hheader : ∃ header, parseHeader stackElf = .ok header ∧ canonical header.entry = true ∧
      tableResult stackElf header header.programHeaderCount 0 = .ok () :=
    ⟨⟨0x700000000000, 64, 56, 1⟩, by decide +kernel, by decide, by decide +kernel⟩
  have hfits : ∀ ph ∈ elfSegments stackElf, ph.Fits := by
    rw [stackElf_segments]
    intro ph hph
    rw [List.mem_singleton.mp hph]
    unfold ProgramHeader.Fits
    decide
  have hlow : LowSegments stackElf := by
    intro ph hph
    have hle := hfits ph hph
    unfold ProgramHeader.Fits at hle
    omega
  have hzero : 0 ∉ frames := fun hin => absurd (htwo 0 hin) (by decide)
  obtain ⟨process, s', hload⟩ := @newFromElf_returns plainMapper 0 ⟨fun _ _ => .unused, frames, [], [], []⟩
    stackElf plainMapper_lawful hnodup (Nat.le_of_eq hlength.symm) hheader hfits
  refine ⟨⟨0, _, process, s', hnodup, supervisorOnly_unused hzero, hload⟩, ?_⟩
  exact (stale_memory_iff plainMapper_lawful hlow hnodup hload).mpr stackElf_covers

/-- The memory of `emptyMemory` with ones in the free frames. -/
def onesMemory : PhysMem :=
  { emptyMemory with ram := fun f _ => if 16 ≤ f.toNat ∧ f.toNat < 64 then ones else .unused }

theorem onesMemory_agrees {f : Frame} (hf : f ∉ emptyMemory.frames) :
    onesMemory.ram f = emptyMemory.ram f := by
  funext _
  refine if_neg fun ⟨hge, hlt⟩ => hf (List.mem_map.mpr ⟨f.toNat - 16, List.mem_range.mpr (by omega), ?_⟩)
  rw [Nat.add_sub_cancel' hge, BitVec.ofNat_toNat, BitVec.setWidth_eq]

/-- The program reads in its stack what was in the free frames. -/
theorem stack_exposes_frames : emptyMemory.frames.Nodup ∧ SupervisorOnly 1 emptyMemory ∧
    ¬ NoStaleMemory plainMapper meetingElf 1 emptyMemory := by
  refine ⟨by decide +kernel, supervisorOnly_unused (by decide +kernel), fun hclean => ?_⟩
  have hzeros : ((Process.newFromElf plainMapper 1 meetingElf).result emptyMemory).any
      (loadedWith fun p s => userRead p.pml4 s.ram 0x700000000000 == some 0) = true := by decide +kernel
  have hones : ((Process.newFromElf plainMapper 1 meetingElf).result onesMemory).any
      (loadedWith fun p s => userRead p.pml4 s.ram 0x700000000000 == some 255) = true := by decide +kernel
  obtain ⟨p₁, s₁, hload₁, hread₁⟩ := exists_loaded hzeros
  obtain ⟨p₂, s₂, hload₂, hread₂⟩ := exists_loaded hones
  have hsame := hclean onesMemory.ram (fun _ hf => onesMemory_agrees hf) p₁ s₁ p₂ s₂ hload₁ hload₂
    0x700000000000 (by decide)
  rw [eq_of_beq hread₁, eq_of_beq hread₂] at hsame
  cases hsame

end Turnix
