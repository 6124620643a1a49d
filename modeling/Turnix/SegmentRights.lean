import Turnix.LoadedSpace

/-!
# The rights of segments

`map_user_region` skips a page that is mapped, so a page has the flags of the first segment with a byte in
it. If a later segment with a byte in the same page needs a right that the first one does not have, the page
lacks it. `segment_rights_iff` says that this is the only way in which rights are missing; a page never has
a right to be written that no segment asks for.
-/

namespace Turnix

open Lib Lib.Paging PanicM RegionLemmas ImageLemmas LoaderLemmas

def ProgramHeader.isWritable (ph : ProgramHeader) : Bool := ph.flags &&& pfW ≠ 0

def ProgramHeader.isExecutable (ph : ProgramHeader) : Bool := ph.flags &&& pfX ≠ 0

/-- The pages of a program have the rights that its segments ask for. -/
structure SegmentRights (data : List UInt8) (process : Process) (s : PhysMem) : Prop where
  writable : ∀ i ph page, LoadAt data i ph → ph.isWritable = true → ph.Touches page →
    ∃ tr, walk s.ram 3 process.pml4 page = some tr ∧ tr.flags.isWritable = true
  executable : ∀ i ph page, LoadAt data i ph → ph.isExecutable = true → ph.Touches page →
    ∃ tr, walk s.ram 3 process.pml4 page = some tr ∧ tr.flags.isNoExecute = false
  readOnly : ∀ page < 2 ^ 35, ¬ StackPage page →
    (∀ i ph, LoadAt data i ph → ph.isWritable = true → ¬ ph.Touches page) →
    ∀ tr, walk s.ram 3 process.pml4 page = some tr → tr.flags.isWritable = false

/-- The first segment with a byte in a page has all rights of the others, unless the page is one of the
stack. -/
def FirstGrants (phs : List ProgramHeader) : Prop :=
  ∀ page, ¬ StackPage page → ∀ first, firstTouching phs page = some first → ∀ ph ∈ phs, ph.Touches page →
    (ph.isWritable = true → first.isWritable = true) ∧ (ph.isExecutable = true → first.isExecutable = true)

namespace RightsLemmas

variable {cr3 : Frame} {data : List UInt8} {s s' : PhysMem} {process : Process} {page : Nat}

theorem isWritable_segmentFlags (ph : ProgramHeader) :
    (regionFlags (segmentFlags ph.flags)).isWritable = ph.isWritable := by
  unfold regionFlags ProgramHeader.isWritable
  rw [Flags.isWritable_union, (segmentFlags_bits ph.flags).2.1]
  exact Bool.false_or _

theorem isNoExecute_segmentFlags (ph : ProgramHeader) :
    (regionFlags (segmentFlags ph.flags)).isNoExecute = !ph.isExecutable := by
  unfold regionFlags ProgramHeader.isExecutable
  rw [Flags.isNoExecute_union, (segmentFlags_bits ph.flags).2.2, decide_not, Bool.not_not]
  exact Bool.false_or _

theorem first_of_touches {phs : List ProgramHeader} {ph : ProgramHeader} (hph : ph ∈ phs)
    (htouch : ph.Touches page) : ∃ first, firstTouching phs page = some first :=
  Option.isSome_iff_exists.mp (List.find?_isSome.mpr ⟨ph, hph, decide_eq_true htouch⟩)

theorem mem_of_first {phs : List ProgramHeader} {first : ProgramHeader}
    (h : firstTouching phs page = some first) : first ∈ phs ∧ first.Touches page := by
  have htouch := List.find?_some h
  exact ⟨List.mem_of_find?_eq_some h, of_decide_eq_true htouch⟩

/-- Where a page is mapped, its flags are those of the stack or of the first segment. -/
theorem flags_of_walk (h : LoadedSpace data cr3 s process s') (hpage : page < 2 ^ 35) :
    (walk s'.ram 3 process.pml4 page).map (·.flags) = if StackPage page then some (regionFlags .writable)
      else (firstTouching (elfSegments data) page).map fun ph => regionFlags (segmentFlags ph.flags) := by
  obtain ⟨frames, kind, hspace⟩ := h.space
  have hflags := hspace.flags page hpage
  unfold view at hflags
  rw [Option.map_map, flags_load fun ph hph => memorySize_pos hph] at hflags
  exact hflags

theorem page_lt_of_touches (h : LoadedSpace data cr3 s process s') {ph : ProgramHeader}
    (hph : ph ∈ elfSegments data) (htouch : ph.Touches page) : page < 2 ^ 35 := by
  obtain ⟨hmem, -, hle⟩ := htouch
  have hfits := h.fits ph hph
  unfold ProgramHeader.Fits at hfits
  omega

/-- A page with a byte of a segment is mapped with the rights of the first one, unless it is one of the
stack. -/
theorem walk_of_first (h : LoadedSpace data cr3 s process s') {first : ProgramHeader}
    (hstack : ¬ StackPage page) (hfirst : firstTouching (elfSegments data) page = some first) :
    ∃ tr, walk s'.ram 3 process.pml4 page = some tr ∧ tr.flags.isWritable = first.isWritable ∧
      tr.flags.isNoExecute = !first.isExecutable := by
  obtain ⟨hmem, htouch⟩ := mem_of_first hfirst
  have hflags := flags_of_walk h (page_lt_of_touches h hmem htouch)
  rw [if_neg hstack, hfirst] at hflags
  obtain ⟨tr, hw, htr⟩ := Option.map_eq_some_iff.mp hflags
  refine ⟨tr, hw, ?_, ?_⟩
  · rw [htr, isWritable_segmentFlags]
  · rw [htr, isNoExecute_segmentFlags]

/-- The pages of the stack have all rights. -/
theorem walk_of_stack (h : LoadedSpace data cr3 s process s') (hstack : StackPage page) :
    ∃ tr, walk s'.ram 3 process.pml4 page = some tr ∧ tr.flags.isWritable = true ∧
      tr.flags.isNoExecute = false := by
  have hlt := hstack.2
  have hflags := flags_of_walk h (show page < 2 ^ 35 by omega)
  rw [if_pos hstack] at hflags
  obtain ⟨tr, hw, htr⟩ := Option.map_eq_some_iff.mp hflags
  refine ⟨tr, hw, ?_, ?_⟩ <;> rw [htr] <;> rfl

theorem loadAt_of_segment {ph : ProgramHeader} (h : ph ∈ elfSegments data) : ∃ i, LoadAt data i ph := by
  obtain ⟨header, i, hheader, hi, hseg⟩ := loadAt_of_mem h
  exact ⟨i, header, hheader, hi, (segmentAt_eq_some hseg).1⟩

end RightsLemmas

open RightsLemmas

/-- When an image with segments in the lower half has been loaded, its pages have the rights that the
segments ask for exactly if the first segment with a byte in a page grants those of the others. -/
theorem segment_rights_iff {c : Mapper} (hc : c.Lawful) {data : List UInt8} {cr3 : Frame} {s s' : PhysMem}
    (hnodup : s.frames.Nodup) {process : Process}
    (hload : (Process.newFromElf c cr3 data).result s = some (.ok process, s'))
    (hlow : ∀ i ph va, LoadAt data i ph → ph.Covers va → va < 2 ^ 47) :
    SegmentRights data process s' ↔ FirstGrants (elfSegments data) := by
  have hloaded : LoadedSpace data cr3 s process s' := by
    refine newFromElf_loaded hc hnodup hload fun ph hph => ?_
    obtain ⟨i, hat⟩ := loadAt_of_segment hph
    have hmem := memorySize_pos hph
    exact hlow i ph _ hat ⟨Nat.le_refl _, by omega⟩
  constructor
  · intro hrights page hstack first hfirst ph hph htouch
    obtain ⟨i, hat⟩ := loadAt_of_segment hph
    obtain ⟨tr, hw, hwritable, hexecutable⟩ := walk_of_first hloaded hstack hfirst
    refine ⟨fun hp => ?_, fun hp => ?_⟩
    · obtain ⟨tr', hw', htr'⟩ := hrights.writable i ph page hat hp htouch
      rw [hw] at hw'
      cases hw'
      rw [← hwritable, htr']
    · obtain ⟨tr', hw', htr'⟩ := hrights.executable i ph page hat hp htouch
      rw [hw] at hw'
      cases hw'
      rw [hexecutable, Bool.not_eq_false'] at htr'
      exact htr'
  · intro hgrants
    constructor
    case writable =>
      intro i ph page hat hp htouch
      have hph := hloaded.complete hat htouch.1
      by_cases hstack : StackPage page
      · obtain ⟨tr, hw, htr, -⟩ := walk_of_stack hloaded hstack
        exact ⟨tr, hw, htr⟩
      · obtain ⟨first, hfirst⟩ := first_of_touches hph htouch
        obtain ⟨tr, hw, hwritable, -⟩ := walk_of_first hloaded hstack hfirst
        exact ⟨tr, hw, hwritable.trans ((hgrants page hstack first hfirst ph hph htouch).1 hp)⟩
    case executable =>
      intro i ph page hat hp htouch
      have hph := hloaded.complete hat htouch.1
      by_cases hstack : StackPage page
      · obtain ⟨tr, hw, -, htr⟩ := walk_of_stack hloaded hstack
        exact ⟨tr, hw, htr⟩
      · obtain ⟨first, hfirst⟩ := first_of_touches hph htouch
        obtain ⟨tr, hw, -, hexecutable⟩ := walk_of_first hloaded hstack hfirst
        refine ⟨tr, hw, ?_⟩
        rw [hexecutable, (hgrants page hstack first hfirst ph hph htouch).2 hp]
        rfl
    case readOnly =>
      intro page hpage hstack hnone tr hw
      have hflags := flags_of_walk hloaded hpage
      rw [if_neg hstack, hw] at hflags
      obtain ⟨first, hfirst, htr⟩ := Option.map_eq_some_iff.mp hflags.symm
      obtain ⟨hmem, htouch⟩ := mem_of_first hfirst
      obtain ⟨i, hat⟩ := loadAt_of_segment hmem
      dsimp only at htr
      rw [← htr, isWritable_segmentFlags, ← Bool.not_eq_true]
      exact fun hp => hnone i first hat hp htouch

/-- An image with a segment that can be executed and one that can be written, in pages of their own. -/
def alignedElf : List UInt8 :=
  programElf 0x400000 [⟨1, 5, 176, 0x400000, 0, 3, 5, 4096⟩, ⟨1, 6, 179, 0x401000, 0, 2, 2, 4096⟩]
    [11, 12, 13, 14, 15]

theorem alignedElf_segments : elfSegments alignedElf =
    [⟨176, 0x400000, 0, 3, 5, 5, 4096⟩, ⟨179, 0x401000, 0, 2, 2, 6, 4096⟩] := by decide +kernel

theorem alignedElf_grants : FirstGrants (elfSegments alignedElf) := by
  intro page _ first hfirst ph hph htouch
  obtain ⟨hmem, htouch'⟩ := mem_of_first hfirst
  rw [alignedElf_segments] at hmem hph
  -- the pages of the two segments are different, so the first one is the only one
  have hsame : ph = first := by
    unfold ProgramHeader.Touches at htouch htouch'
    rcases List.mem_pair.mp hmem with rfl | rfl <;> rcases List.mem_pair.mp hph with rfl | rfl
    · rfl
    · dsimp only at htouch htouch'
      omega
    · dsimp only at htouch htouch'
      omega
    · rfl
  rw [hsame]
  exact ⟨id, id⟩

theorem segment_rights_aligned : ∃ process s',
    (Process.newFromElf plainMapper 1 alignedElf).result emptyMemory = some (.ok process, s') ∧
    SegmentRights alignedElf process s' := by
  have hrun : ((Process.newFromElf plainMapper 1 alignedElf).result emptyMemory).any
      (loadedWith fun _ _ => true) = true := by decide +kernel
  obtain ⟨process, s', hload, -⟩ := exists_loaded hrun
  have hnodup : emptyMemory.frames.Nodup := by decide +kernel
  have hloaded : LoadedSpace alignedElf 1 emptyMemory process s' := by
    refine newFromElf_loaded plainMapper_lawful hnodup hload ?_
    rw [alignedElf_segments]
    decide
  refine ⟨process, s', hload, (segment_rights_iff plainMapper_lawful hnodup hload ?_).mpr
    alignedElf_grants⟩
  rintro i ph va hat ⟨hge, hlt⟩
  have hph := hloaded.complete hat (by omega)
  rw [alignedElf_segments] at hph
  rcases List.mem_pair.mp hph with rfl | rfl <;> dsimp only at hlt <;> omega

/-- The segment of data of this image starts in the last page of the code. It is mapped with the flags of
the code, and cannot be written. -/
theorem data_page_read_only : ∃ process s',
    (Process.newFromElf plainMapper 1 meetingElf).result emptyMemory = some (.ok process, s') ∧
    ¬ SegmentRights meetingElf process s' := by
  have hrun : ((Process.newFromElf plainMapper 1 meetingElf).result emptyMemory).any
      (loadedWith fun process s => (walk s.ram 3 process.pml4 0x401).all fun tr => !tr.flags.isWritable) =
        true := by decide +kernel
  obtain ⟨process, s', hload, hflags⟩ := exists_loaded hrun
  refine ⟨process, s', hload, fun hrights => ?_⟩
  have hat : LoadAt meetingElf 1 ⟨179, 0x401003, 0, 2, 2, 6, 4096⟩ :=
    ⟨⟨0x400FFE, 64, 56, 2⟩, by decide +kernel, by decide, by decide +kernel⟩
  obtain ⟨tr, hw, hwritable⟩ := hrights.writable 1 _ 0x401 hat (by decide) (by decide)
  rw [hw, Option.all_some, hwritable] at hflags
  cases hflags

end Turnix
