import Turnix.LoadedSpace

/-!
# Images that make the loader panic

`new_from_elf` makes addresses of what the image says with operations that panic: the entry point, the start
and the end of a segment, and the page after the last one of the lower half, to which the iterator over the
pages moves before it returns that last one. `map_to` fails below an entry of a large page, and in the upper
half the page tables are those of the kernel. So no image makes the loader panic exactly if the entry point
is canonical and every segment ends below the last page of the lower half (`never_panics_iff`).
-/

namespace Turnix

open Lib Lib.Paging PanicM RegionLemmas ImageLemmas LoaderLemmas IsolationLemmas

/-- From every state the loader returns, or the allocator has run out. -/
def NeverPanics (c : Mapper) (data : List UInt8) : Prop :=
  ∀ cr3 s, s.frames.Nodup →
    Ends (Process.newFromElf c cr3 data) s (fun _ _ => True) fun s' => s'.frames = []

/-- If there is a header, its entry point is canonical, and the segments end below the last page of the
lower half. -/
def AddressesFit (data : List UInt8) : Prop :=
  ∀ header, parseHeader data = .ok header →
    canonical header.entry = true ∧ ∀ ph ∈ elfSegments data, ph.Fits

namespace PanicLemmas

variable {c : Mapper} {cr3 pml4 : Frame} {frames : List Frame} {s₀ s : PhysMem} {kind : Frame → Kind}
  {a : AddressSpace} {data : List UInt8}

/-! ## Many frames -/

/-- There are frames for every page of the lower half and its tables. -/
theorem exists_frames : ∃ frames : List Frame, frames.Nodup ∧ frames.length = 2 ^ 38 ∧
    ∀ f ∈ frames, 2 ≤ f.toNat := by
  refine ⟨(List.range (2 ^ 38)).map fun i => BitVec.ofNat 40 (i + 2), ?_, ?_, ?_⟩
  · refine List.nodup_range.map_on fun i hi j hj heq => ?_
    rw [List.mem_range] at hi hj
    have hval := congrArg BitVec.toNat heq
    rw [toNat_frame (by omega), toNat_frame (by omega)] at hval
    omega
  · rw [List.length_map, List.length_range]
  · intro f hf
    obtain ⟨i, hi, rfl⟩ := List.mem_map.mp hf
    rw [List.mem_range] at hi
    rw [toNat_frame (by omega)]
    omega

/-- They do not run out. -/
theorem not_exhausted (hlength : 2 ^ 38 ≤ s₀.frames.length) : ¬ Exhausted s₀ s := by
  rintro ⟨-, hle⟩
  omega

theorem many_left (hlength : 2 ^ 38 ≤ s₀.frames.length) (h : Represents cr3 pml4 frames s₀ kind s a) :
    4 < s.frames.length := by
  have hbudget := h.budget
  have hpages := a.card_pages_le
  omega

theorem frames_left (hlength : 2 ^ 38 ≤ s₀.frames.length) (h : Represents cr3 pml4 frames s₀ kind s a) :
    s.frames ≠ [] := List.ne_nil_of_length_pos (Nat.lt_trans (by decide) (many_left hlength h))

/-- If all addresses fit, the loader returns what it says of the program headers, unless the allocator runs
out. -/
theorem ends_newFromElf_process (hc : c.Lawful) (hnodup : s.frames.Nodup) {header : ElfHeader}
    (hheader : parseHeader data = .ok header) (hentry : canonical header.entry = true)
    (hfits : ∀ ph ∈ elfSegments data, ph.Fits) :
    Ends (Process.newFromElf c cr3 data) s
      (fun r _ => ∃ pml4 : Frame, r = (tableResult data header header.programHeaderCount 0).map
        fun _ => ⟨pml4.toNat, header.entry, 0x700000008000⟩)
      (Exhausted s) := by
  refine ends_newFromElf_space hc hnodup hheader (fun _ h => h) (fun hnot => ?_)
    fun _ pml4 frames kind s₁ h => ?_
  · rw [hentry] at hnot
    cases hnot
  · rw [← elfSegments_eq hheader]
    refine (loadAll_represents hc h fun ph hph => lowStart_of_mem hph ?_).mono
      (fun _ _ _ => ⟨pml4, rfl⟩) ?_
    · have hle := hfits ph hph
      unfold ProgramHeader.Fits at hle
      omega
    · rintro s₂ (hend | ⟨hnot, -⟩)
      · exact hend
      · exact absurd hfits hnot

theorem ends_newFromElf_fits (hc : c.Lawful) (hnodup : s.frames.Nodup) {header : ElfHeader}
    (hheader : parseHeader data = .ok header) (hentry : canonical header.entry = true)
    (hfits : ∀ ph ∈ elfSegments data, ph.Fits) :
    Ends (Process.newFromElf c cr3 data) s
      (fun r _ => ∃ process, r = (tableResult data header header.programHeaderCount 0).map fun _ => process)
      (Exhausted s) :=
  (ends_newFromElf_process hc hnodup hheader hentry hfits).mono (fun _ _ ⟨_, h⟩ => ⟨_, h⟩) fun _ h => h

/-! ## A segment in the upper half -/

/-- Below a PML4 with this entry there are only entries of large pages that are not present. -/
structure Husk (ram : Ram) (pml4 : Frame) (i : Fin 512) : Prop where
  present : (ram pml4 i).flags.isPresent = true
  link : (ram pml4 i).flags.isHuge = false
  apart : (ram pml4 i).frame ≠ pml4
  below : ∀ j, ram (ram pml4 i).frame j = ⟨.huge, 0⟩

theorem Husk.regular {ram : Ram} {page : Nat} (h : Husk ram pml4 (index 3 page)) : Regular ram 3 pml4 page := by
  intro _
  rw [h.link, if_neg Bool.false_ne_true]
  intro hp
  rw [h.below] at hp
  cases hp

theorem Husk.walk_none {ram : Ram} {page : Nat} (h : Husk ram pml4 (index 3 page)) :
    walk ram 3 pml4 page = none := by
  rw [walk_through rfl h.present h.link, walk, h.below, if_neg (by decide), Option.map_none]

/-- The first page cannot be mapped. -/
theorem mapUserPages_husk (hc : c.Lawful) {flags : Flags} (hp : flags.isPresent = true)
    (hh : flags.isHuge = false) {count page : Nat} (hpos : 0 < count)
    (h : Husk s.ram pml4 (index 3 page)) (hmany : 4 < s.frames.length) :
    Ends (mapUserPages c pml4 flags count page) s (fun _ _ => False) fun s' => s'.frames ≠ [] := by
  obtain ⟨count, rfl⟩ := Nat.exists_eq_add_of_le' hpos
  have hdiv : page * 4096 / 4096 = page := Nat.mul_div_cancel page (by decide)
  unfold mapUserPages
  rw [ends_bind, ends_nextPage]
  refine ⟨fun _ => ?_, fun _ => List.ne_nil_of_length_pos (by omega)⟩
  rw [ends_bind, ends_get, hc.translateAddr_eq _ _ _ (by rw [hdiv]; exact h.regular), hdiv, h.walk_none]
  show Ends (allocateFrame >>= _) _ _ _
  rw [ends_expect_allocateFrame]
  refine ⟨fun hempty => absurd hempty (List.ne_nil_of_length_pos (by omega)), fun frame rest hframes => ?_⟩
  rw [ends_bind]
  unfold Ends mapTo
  rw [hh, if_neg Bool.false_ne_true]
  obtain ⟨out, hmap, -, hleft, hresult, -⟩ := hc.mapTo_does s.ram pml4 page frame flags rest hp hh
  have herror := hmap.huge_below rfl (ne_unused_of_present h.present) h.link h.apart (h.below _)
    (by decide) rfl
  dsimp only
  show Ends (expectOk _ >>= _) _ _ _
  rw [hresult, herror, ends_bind, ends_expectOk]
  refine ⟨fun hok => (by cases hok), fun _ _ => List.ne_nil_of_length_pos ?_⟩
  have hle := hmap.frames_le
  rw [hframes, List.length_cons] at hmany
  show 0 < (c.mapTo s.ram pml4 page frame flags rest).frames.length
  rw [hleft]
  omega

theorem loadSegment_husk (hc : c.Lawful) {ph : ProgramHeader} (hmem : 0 < ph.memorySize)
    (hstart : 2 ^ 47 ≤ ph.virtualAddress)
    (h : ∀ i : Fin 512, 256 ≤ i.val → Husk s.ram pml4 i) (hmany : 4 < s.frames.length) :
    Ends (loadSegment c pml4 data ph) s (fun _ _ => False) fun s' => s'.frames ≠ [] := by
  have hne : s.frames ≠ [] := List.ne_nil_of_length_pos (by omega)
  unfold loadSegment mapUserRegion addAddr
  rw [ends_bind, ends_virtAddr, canonical_iff]
  refine ⟨fun hcanonical => ?_, fun _ => hne⟩
  have hupper := hcanonical.resolve_left (Nat.not_lt.mpr hstart)
  rw [ends_bind, ends_bind, ends_virtAddr]
  refine ⟨fun _ => ?_, fun _ => hne⟩
  rw [ends_bind, ends_subAddr]
  refine ⟨fun _ => ?_, fun _ => hne⟩
  rw [ends_bind]
  refine (mapUserPages_husk hc (regionFlags_isPresent _)
    ((regionFlags_isHuge _).trans (segmentFlags_bits ph.flags).1) ?_
    (h _ (index_upper hupper.1 hupper.2)) hmany).mono (fun _ _ h => h.elim) fun _ h => h
  have := Nat.div_le_div_right (c := 4096) (show ph.virtualAddress ≤ ph.virtualAddress + ph.memorySize - 1 by omega)
  omega

/-! ## An image that does not fit -/

/-- One of the segments stops the loader. -/
theorem loadAll_stops (hc : c.Lawful) (hlength : 2 ^ 38 ≤ s₀.frames.length)
    (hhusk : ∀ {kind s a}, Represents cr3 pml4 frames s₀ kind s a →
      ∀ i : Fin 512, 256 ≤ i.val → Husk s.ram pml4 i) {phs : List ProgramHeader} :
    ∀ {kind : Frame → Kind} {s : PhysMem} {a : AddressSpace}, Represents cr3 pml4 frames s₀ kind s a →
      (∀ ph ∈ phs, ph ∈ elfSegments data) → (∃ ph ∈ phs, ¬ ph.Fits) →
      Ends (loadAll c pml4 data phs) s (fun _ _ => False) fun s' => s'.frames ≠ [] := by
  induction phs with
  | nil => exact fun _ _ ⟨ph, hph, _⟩ => absurd hph List.not_mem_nil
  | cons ph phs ih =>
    intro kind s a h hphs hbad
    have hph := hphs ph List.mem_cons_self
    unfold loadAll
    rw [ends_bind]
    by_cases hstart : ph.virtualAddress < 2 ^ 47
    · refine (loadSegment_represents hc h (lowStart_of_mem hph hstart)).mono ?_ ?_
      · rintro _ s₁ ⟨hfits, kind₁, h₁⟩
        refine ih h₁ (fun q hq => hphs q (List.mem_cons_of_mem _ hq)) ?_
        obtain ⟨q, hq, hnot⟩ := hbad
        rcases List.mem_cons.mp hq with rfl | hq
        · exact absurd hfits hnot
        · exact ⟨q, hq, hnot⟩
      · rintro s₁ (hexhausted | ⟨-, kind₁, a₁, h₁⟩)
        · exact absurd hexhausted (not_exhausted hlength)
        · exact frames_left hlength h₁
    · refine (loadSegment_husk hc (memorySize_pos hph) (Nat.le_of_not_lt hstart) (hhusk h)
        (many_left hlength h)).mono (fun _ _ h => h.elim) fun _ h => h

/-- Kernel tables that map nothing, but are not empty either. -/
def huskRam : Ram := fun f i =>
  if f = 0 then if 256 ≤ i.val then ⟨kernelFlags, 1⟩ else .unused
  else if f = 1 then ⟨.huge, 0⟩
  else .unused

theorem represents_husk (hframes : ∀ f ∈ s₀.frames, 2 ≤ f.toNat) (hram : s₀.ram = huskRam)
    (h : Represents 0 pml4 frames s₀ kind s a) {i : Fin 512} (hi : 256 ≤ i.val) : Husk s.ram pml4 i := by
  have hfree : ∀ f : Frame, f.toNat < 2 → f ∉ s₀.frames := by
    intro f hf hin
    have := hframes f hin
    omega
  obtain ⟨hsame, hshared⟩ := Loading.kernel (hfree 0 (by decide)) h.loading
  have hentry : s.ram pml4 i = ⟨kernelFlags, 1⟩ := by
    rw [hshared i hi, hram]
    exact if_pos hi
  constructor
  case present =>
    rw [hentry]
    rfl
  case link =>
    rw [hentry]
    rfl
  case apart =>
    rw [hentry]
    rintro rfl
    exact hfree 1 (by decide) (h.loading.1 ▸ List.mem_cons_self)
  case below =>
    intro j
    rw [hentry]
    show s.ram 1 j = _
    rw [hsame 1 (hfree 1 (by decide)), hram]
    rfl

end PanicLemmas

open PanicLemmas

/-- No state makes the loader panic on an image before the allocator runs out exactly if the addresses in
the image fit. All states are meant: what stops the loader at a segment in the upper half is an entry of a large page
that is not present (`huskRam`), which no code of the kernel or of its loader writes. -/
theorem never_panics_iff {c : Mapper} (hc : c.Lawful) (data : List UInt8) :
    NeverPanics c data ↔ AddressesFit data := by
  constructor
  · intro hnever header hheader
    obtain ⟨frames, hnodup, hlength, htwo⟩ := exists_frames
    by_contra hnot
    have hstops : Ends (Process.newFromElf c 0 data) ⟨huskRam, frames, [], [], []⟩ (fun _ _ => False)
        fun s' => s'.frames ≠ [] := by
      have hmany : 2 ^ 38 ≤ frames.length := Nat.le_of_eq hlength.symm
      refine ends_newFromElf_space hc hnodup hheader (fun s' h => absurd h (not_exhausted hmany))
        (fun _ pml4 rest kind s' h => frames_left hmany h) fun hentry pml4 rest kind s₁ h => ?_
      · rw [← elfSegments_eq hheader]
        refine loadAll_stops hc hmany (fun h i hi => represents_husk htwo rfl h hi) h (fun _ hph => hph) ?_
        by_contra hall
        exact hnot ⟨hentry, fun ph hph => by_contra fun hbad => hall ⟨ph, hph, hbad⟩⟩
    obtain ⟨_, _, -, hfalse⟩ := ((Ends.and (hnever 0 _ hnodup) hstops).mono (fun _ _ h => h.2)
      fun _ h => h.2 h.1).total
    exact hfalse
  · intro hfit cr3 s hnodup
    rcases hheader : parseHeader data with e | header
    · unfold Process.newFromElf
      rw [hheader]
      trivial
    · obtain ⟨hentry, hfits⟩ := hfit header hheader
      exact (ends_newFromElf_fits hc hnodup hheader hentry hfits).mono (fun _ _ _ => trivial) fun _ h => h.1

theorem meetingElf_fits : AddressesFit meetingElf := by
  intro header hheader
  have hheader' : parseHeader meetingElf = .ok ⟨0x400FFE, 64, 56, 2⟩ := by decide +kernel
  have hsegments : elfSegments meetingElf =
      [⟨176, 0x400FFE, 0, 3, 5, 5, 4096⟩, ⟨179, 0x401003, 0, 2, 2, 6, 4096⟩] := by decide +kernel
  rw [hheader] at hheader'
  cases hheader'
  refine ⟨by decide, fun ph hph => ?_⟩
  rw [hsegments] at hph
  unfold ProgramHeader.Fits
  rcases List.mem_pair.mp hph with rfl | rfl <;> decide

theorem never_panics_meeting : NeverPanics plainMapper meetingElf := by
  rw [never_panics_iff plainMapper_lawful]
  exact meetingElf_fits

/-- An image that is a header only, with the first address that is not canonical as its entry point. -/
def entryElf : List UInt8 := programElf 0x800000000000 [] []

/-- `VirtAddr::new` panics, with 47 frames left. -/
theorem entry_panics : (Process.newFromElf plainMapper 1 entryElf emptyMemory).1.isNone = true ∧
    (Process.newFromElf plainMapper 1 entryElf emptyMemory).2.frames.length = 47 ∧
    ¬ NeverPanics plainMapper entryElf := by
  have hpanic : (Process.newFromElf plainMapper 1 entryElf emptyMemory).1.isNone = true := by
    decide +kernel
  have hleft : (Process.newFromElf plainMapper 1 entryElf emptyMemory).2.frames.length = 47 := by
    decide +kernel
  refine ⟨hpanic, hleft, fun hnever => ?_⟩
  have hempty := (hnever 1 emptyMemory (by decide +kernel)).panics hpanic
  rw [hempty] at hleft
  cases hleft

end Turnix
