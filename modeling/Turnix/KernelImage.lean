import Turnix.Lib.PanicM
import Turnix.Lib.Span
import Turnix.UefiElf

/-!
# The image of the kernel

`load_kernel` of the loader goes over the program headers twice: the first pass computes how many pages
the image needs, and the second one copies the segments with pointers that nothing checks. What makes the
second pass safe is that both see the same segments: `extentLoop_spec` says what the first one knows of
them, and `copyLoop_ends` uses that.
-/

namespace Turnix

open Lib PanicM

namespace Uefi

/-! ## The first pass -/

/-- The variables of the first loop. -/
structure Extent where
  loadable : Nat
  virtualBase : Nat
  virtualEnd : Nat
deriving DecidableEq, Repr

/-- The first loop of `load_kernel`. -/
def extentLoop (image : List UInt8) (header : ElfHeader) : List Nat → Extent → Except LoadError Extent
  | [], e => .ok e
  | index :: rest, e =>
    match parseProgramHeader image header index with
    | .error err => .error err
    | .ok none => extentLoop image header rest e
    | .ok (some ph) =>
      match checkedAdd ph.virtualAddress ph.memorySize with
      | none => .error .segmentAddressOverflow
      | some segmentEnd => extentLoop image header rest
          ⟨e.loadable + 1, min e.virtualBase ph.virtualAddress, max e.virtualEnd segmentEnd⟩

/-- What `load_kernel` knows when it asks for memory. -/
structure Plan where
  header : ElfHeader
  virtualBase : Nat
  imageSize : Nat
  pageCount : Nat
deriving DecidableEq, Repr

/-- `load_kernel`, up to the allocation. -/
def plan (image : List UInt8) : Except LoadError Plan := do
  let header ← parseHeader image
  let e ← extentLoop image header (List.range header.programHeaderCount) ⟨0, 2 ^ 64 - 1, 0⟩
  if e.loadable = 0 then .error .noLoadSegments
  else if e.virtualBase &&& 0xFFF ≠ 0 then .error (.segmentAlignment e.virtualBase)
  else if e.virtualEnd < e.virtualBase then .error .segmentAddressOverflow
  else
    let imageSize := e.virtualEnd - e.virtualBase
    .ok ⟨header, e.virtualBase, imageSize, (imageSize + 4095) / 4096⟩

/-! ## The second pass -/

/-- Physical memory, and what was written to it. -/
structure LoaderMemory where
  mem : Nat → UInt8
  writes : List Span

/-- `write_bytes` and `copy_nonoverlapping`: byte `i` of the `n` from `dest` on becomes `byte i`. -/
def fill (dest n : Nat) (byte : Nat → UInt8) : PanicM LoaderMemory Unit :=
  .modify fun s =>
    { mem := fun a => if dest ≤ a ∧ a < dest + n then byte (a - dest) else s.mem a
      writes := s.writes ++ [⟨dest, n⟩] }

/-- The second loop of `load_kernel`. -/
def copyLoop (image : List UInt8) (header : ElfHeader) (virtualBase physicalBase : Nat) :
    List Nat → PanicM LoaderMemory (Except LoadError Unit)
  | [] => pure (.ok ())
  | index :: rest =>
    match parseProgramHeader image header index with
    | .error e => pure (.error e)
    | .ok none => copyLoop image header virtualBase physicalBase rest
    | .ok (some ph) =>
      match checkedAdd ph.fileOffset ph.fileSize with
      | none => pure (.error .segmentOutOfBounds)
      | some sourceEnd =>
        if sourceEnd > image.length then pure (.error .segmentOutOfBounds)
        else do
          PanicM.ensure (decide (virtualBase ≤ ph.virtualAddress))
          let offset := ph.virtualAddress - virtualBase
          PanicM.ensure (decide (physicalBase + offset < 2 ^ 64))
          let destPhysical := physicalBase + offset
          fill destPhysical ph.fileSize fun i => image.getD (ph.fileOffset + i) 0
          copyLoop image header virtualBase physicalBase rest

/-- `LoadedKernel`. -/
structure LoadedKernel where
  entryPoint : Nat
  virtualBase : Nat
  physicalBase : Nat
  imageSize : Nat
deriving DecidableEq, Repr

/-- `load_kernel`. `allocatePages` is `boot::allocate_pages` of UEFI: the address of that many pages, or
a status. -/
def loadKernel (allocatePages : Nat → Except Nat Nat) (image : List UInt8) :
    PanicM LoaderMemory (Except LoadError LoadedKernel) :=
  match plan image with
  | .error e => pure (.error e)
  | .ok p =>
    match allocatePages p.pageCount with
    | .error status => pure (.error (.allocationFailed status))
    | .ok physicalBase => do
      PanicM.ensure (decide (p.pageCount * 4096 < 2 ^ 64))
      fill physicalBase (p.pageCount * 4096) fun _ => 0
      match ← copyLoop image p.header p.virtualBase physicalBase
          (List.range p.header.programHeaderCount) with
      | .error e => pure (.error e)
      | .ok () => pure (.ok ⟨p.header.entryPoint, p.virtualBase, physicalBase, p.imageSize⟩)

/-- The segments among the program headers of these indices. -/
def segmentsOf (image : List UInt8) (header : ElfHeader) (indices : List Nat) : List ProgramHeader :=
  indices.filterMap fun index => (parseProgramHeader image header index).toOption.join

/-- The segments of the image. -/
def Plan.segments (p : Plan) (image : List UInt8) : List ProgramHeader :=
  segmentsOf image p.header (List.range p.header.programHeaderCount)

/-- The memory that a segment takes up. -/
def ProgramHeader.span (ph : ProgramHeader) : Span := ⟨ph.virtualAddress, ph.memorySize⟩

end Uefi

namespace KernelImageLemmas

open Uefi

variable {image : List UInt8} {header : Uefi.ElfHeader}

theorem segmentsOf_cons {index : Nat} {r : Option Uefi.ProgramHeader}
    (h : Uefi.parseProgramHeader image header index = .ok r) (rest : List Nat) :
    segmentsOf image header (index :: rest) = r.toList ++ segmentsOf image header rest := by
  unfold segmentsOf
  rw [List.filterMap_cons, h]
  cases r <;> rfl

/-- What the first pass knows of the segments it has seen, `e` before and `e'` after them. -/
structure Extended (e e' : Extent) (segments : List Uefi.ProgramHeader) : Prop where
  loadable : e'.loadable = e.loadable + segments.length
  fits : ∀ ph ∈ segments, ph.virtualAddress + ph.memorySize < 2 ^ 64
  base_le : e'.virtualBase ≤ e.virtualBase ∧ ∀ ph ∈ segments, e'.virtualBase ≤ ph.virtualAddress
  base_eq : e'.virtualBase = e.virtualBase ∨ ∃ ph ∈ segments, e'.virtualBase = ph.virtualAddress
  le_end : e.virtualEnd ≤ e'.virtualEnd ∧
    ∀ ph ∈ segments, ph.virtualAddress + ph.memorySize ≤ e'.virtualEnd
  end_eq : e'.virtualEnd = e.virtualEnd ∨
    ∃ ph ∈ segments, e'.virtualEnd = ph.virtualAddress + ph.memorySize

theorem extended_nil (e : Extent) : Extended e e [] :=
  ⟨rfl, List.forall_mem_nil _, ⟨Nat.le_refl _, List.forall_mem_nil _⟩, .inl rfl,
    ⟨Nat.le_refl _, List.forall_mem_nil _⟩, .inl rfl⟩

theorem Extended.cons {e e' : Extent} {ph : Uefi.ProgramHeader} {segments : List Uefi.ProgramHeader}
    (hfit : ph.virtualAddress + ph.memorySize < 2 ^ 64)
    (h : Extended ⟨e.loadable + 1, min e.virtualBase ph.virtualAddress,
      max e.virtualEnd (ph.virtualAddress + ph.memorySize)⟩ e' segments) :
    Extended e e' (ph :: segments) := by
  obtain ⟨hcount, hfits, hbase, hbaseEq, hend, hendEq⟩ := h
  dsimp only at hcount hbase hbaseEq hend hendEq
  refine ⟨?_, List.forall_mem_cons.mpr ⟨hfit, hfits⟩, ⟨?_, List.forall_mem_cons.mpr ⟨?_, hbase.2⟩⟩, ?_,
    ⟨?_, List.forall_mem_cons.mpr ⟨?_, hend.2⟩⟩, ?_⟩
  · rw [List.length_cons]
    omega
  · exact hbase.1.trans (Nat.min_le_left _ _)
  · exact hbase.1.trans (Nat.min_le_right _ _)
  · rcases hbaseEq with heq | ⟨q, hq, heq⟩
    · rcases Nat.le_total e.virtualBase ph.virtualAddress with hle | hle
      · exact .inl (heq.trans (Nat.min_eq_left hle))
      · exact .inr ⟨ph, List.mem_cons_self, heq.trans (Nat.min_eq_right hle)⟩
    · exact .inr ⟨q, List.mem_cons_of_mem _ hq, heq⟩
  · exact (Nat.le_max_left _ _).trans hend.1
  · exact (Nat.le_max_right _ _).trans hend.1
  · rcases hendEq with heq | ⟨q, hq, heq⟩
    · rcases Nat.le_total e.virtualEnd (ph.virtualAddress + ph.memorySize) with hle | hle
      · exact .inr ⟨ph, List.mem_cons_self, heq.trans (Nat.max_eq_right hle)⟩
      · exact .inl (heq.trans (Nat.max_eq_left hle))
    · exact .inr ⟨q, List.mem_cons_of_mem _ hq, heq⟩

/-- The first pass ends well only if it has parsed every program header. -/
theorem extentLoop_spec : ∀ {indices : List Nat} {e e' : Extent},
    extentLoop image header indices e = .ok e' →
      (∀ i ∈ indices, ∃ r, Uefi.parseProgramHeader image header i = .ok r) ∧
        Extended e e' (segmentsOf image header indices)
  | [], e, e', h => by
    cases h
    exact ⟨List.forall_mem_nil _, extended_nil e⟩
  | index :: rest, e, e', h => by
    unfold extentLoop at h
    split at h
    · cases h
    · next hr =>
      rw [segmentsOf_cons hr]
      obtain ⟨hparsed, hext⟩ := extentLoop_spec h
      exact ⟨List.forall_mem_cons.mpr ⟨⟨_, hr⟩, hparsed⟩, hext⟩
    · next ph hr =>
      rw [segmentsOf_cons hr]
      split at h
      · cases h
      · next hadd =>
        obtain ⟨hfit, rfl⟩ := checkedAdd_eq_some.mp hadd
        obtain ⟨hparsed, hext⟩ := extentLoop_spec h
        exact ⟨List.forall_mem_cons.mpr ⟨⟨_, hr⟩, hparsed⟩, hext.cons hfit⟩

/-- What holds of the image when `load_kernel` asks for memory. -/
structure Planned (image : List UInt8) (p : Plan) : Prop where
  parsed : ∀ i ∈ List.range p.header.programHeaderCount,
    ∃ r, Uefi.parseProgramHeader image p.header i = .ok r
  aligned : 4096 ∣ p.virtualBase
  least : ∀ ph ∈ p.segments image, p.virtualBase ≤ ph.virtualAddress
  base_eq : ∃ ph ∈ p.segments image, p.virtualBase = ph.virtualAddress
  greatest : ∀ ph ∈ p.segments image, ph.virtualAddress + ph.memorySize ≤ p.virtualBase + p.imageSize
  end_eq : ∃ ph ∈ p.segments image, p.virtualBase + p.imageSize = ph.virtualAddress + ph.memorySize
  pages : p.imageSize ≤ p.pageCount * 4096

theorem planned_of_plan {p : Plan} (h : plan image = .ok p) : Planned image p := by
  obtain ⟨header, -, h⟩ := bind_eq_ok.mp h
  obtain ⟨e, he, h⟩ := bind_eq_ok.mp h
  obtain ⟨hloadable, h⟩ := ite_error_eq_ok.mp h
  obtain ⟨haligned, h⟩ := ite_error_eq_ok.mp h
  obtain ⟨horder, h⟩ := ite_error_eq_ok.mp h
  cases h
  obtain ⟨hparsed, hext⟩ := extentLoop_spec he
  -- some program header is a segment, so the initial values of the loop are gone
  obtain ⟨ph, hph⟩ : ∃ ph, ph ∈ segmentsOf image header (List.range header.programHeaderCount) := by
    refine List.exists_mem_of_length_pos ?_
    have hcount := hext.loadable
    dsimp only at hcount
    omega
  have hsum : e.virtualBase + (e.virtualEnd - e.virtualBase) = e.virtualEnd := by omega
  refine ⟨hparsed, ?_, hext.base_le.2, ?_, ?_, ?_, ?_⟩
  · rw [show 0xFFF = 2 ^ 12 - 1 from rfl, Nat.and_two_pow_sub_one_eq_mod] at haligned
    exact Nat.dvd_of_mod_eq_zero (Decidable.of_not_not haligned)
  · rcases hext.base_eq with heq | hex
    · have hle := hext.base_le.2 ph hph
      have hfit := hext.fits ph hph
      dsimp only at heq
      refine ⟨ph, hph, ?_⟩
      dsimp only
      omega
    · exact hex
  · intro q hq
    dsimp only
    rw [hsum]
    exact hext.le_end.2 q hq
  · dsimp only
    rw [hsum]
    rcases hext.end_eq with heq | hex
    · have hle := hext.le_end.2 ph hph
      dsimp only at heq
      exact ⟨ph, hph, by omega⟩
    · exact hex
  · dsimp only
    omega

/-! ## The copies -/

variable {virtualBase physicalBase size : Nat}

/-- What the copy of a segment makes of memory. -/
def copied (image : List UInt8) (virtualBase physicalBase : Nat) (mem : Nat → UInt8)
    (ph : Uefi.ProgramHeader) : Nat → UInt8 := fun a =>
  let dest := physicalBase + (ph.virtualAddress - virtualBase)
  if dest ≤ a ∧ a < dest + ph.fileSize then image.getD (ph.fileOffset + (a - dest)) 0 else mem a

/-- The arena that the first pass has sized holds the segment. -/
def Inside (virtualBase size : Nat) (ph : Uefi.ProgramHeader) : Prop :=
  virtualBase ≤ ph.virtualAddress ∧ ph.virtualAddress + ph.memorySize ≤ virtualBase + size ∧
    ph.fileSize ≤ ph.memorySize

theorem fileSize_le {index : Nat} {ph : Uefi.ProgramHeader}
    (h : Uefi.parseProgramHeader image header index = .ok (some ph)) : ph.fileSize ≤ ph.memorySize := by
  unfold Uefi.parseProgramHeader at h
  split at h
  · cases h
  · obtain ⟨-, h⟩ := ite_error_eq_ok.mp h
    obtain ⟨_, -, h⟩ := bind_eq_ok.mp h
    split at h
    · cases h
    · obtain ⟨_, -, h⟩ := bind_eq_ok.mp h
      obtain ⟨_, -, h⟩ := bind_eq_ok.mp h
      obtain ⟨-, h⟩ := ite_error_eq_ok.mp h
      obtain ⟨_, -, h⟩ := bind_eq_ok.mp h
      obtain ⟨_, -, h⟩ := bind_eq_ok.mp h
      obtain ⟨hle, h⟩ := ite_error_eq_ok.mp h
      obtain ⟨_, -, h⟩ := bind_eq_ok.mp h
      cases h
      exact Nat.le_of_not_lt hle

/-- New writes are in the arena. -/
def WritesInside (arena : Span) (s s' : LoaderMemory) : Prop :=
  ∃ log, s'.writes = s.writes ++ log ∧ ∀ w ∈ log, w.Within arena

theorem WritesInside.trans {arena : Span} {s s' s'' : LoaderMemory} (h : WritesInside arena s s')
    (h' : WritesInside arena s' s'') : WritesInside arena s s'' := by
  obtain ⟨log, heq, hin⟩ := h
  obtain ⟨log', heq', hin'⟩ := h'
  refine ⟨log ++ log', by rw [heq', heq, List.append_assoc], fun w hw => ?_⟩
  exact (List.mem_append.mp hw).elim (hin w) (hin' w)

theorem writesInside_refl (arena : Span) (s : LoaderMemory) : WritesInside arena s s :=
  ⟨[], (List.append_nil _).symm, List.forall_mem_nil _⟩

theorem ends_fill {dest n : Nat} {byte : Nat → UInt8} {s : LoaderMemory}
    {Q : Unit → LoaderMemory → Prop} {E : LoaderMemory → Prop} :
    Ends (fill dest n byte) s Q E ↔ Q ()
      { mem := fun a => if dest ≤ a ∧ a < dest + n then byte (a - dest) else s.mem a
        writes := s.writes ++ [⟨dest, n⟩] } := Iff.rfl

/-- The second pass: it does not panic, it writes in the arena only, also when it ends with an error, and
if it ends well it has copied every segment from inside the file. -/
theorem copyLoop_ends (hend : physicalBase + size ≤ 2 ^ 52) :
    ∀ {indices : List Nat} {s : LoaderMemory},
      (∀ i ∈ indices, ∃ r, Uefi.parseProgramHeader image header i = .ok r) →
      (∀ ph ∈ segmentsOf image header indices, Inside virtualBase size ph) →
      Ends (copyLoop image header virtualBase physicalBase indices) s
        (fun r s' => WritesInside ⟨physicalBase, size⟩ s s' ∧ (r = .ok () →
          (∀ ph ∈ segmentsOf image header indices, ph.fileOffset + ph.fileSize ≤ image.length) ∧
          s'.mem = (segmentsOf image header indices).foldl (copied image virtualBase physicalBase) s.mem))
        fun _ => False
  | [], s, _, _ => ⟨writesInside_refl _ s, fun _ => ⟨List.forall_mem_nil _, rfl⟩⟩
  | index :: rest, s, hparsed, hinside => by
    obtain ⟨⟨r, hr⟩, hparsed⟩ := List.forall_mem_cons.mp hparsed
    rw [segmentsOf_cons hr] at hinside ⊢
    unfold copyLoop
    rw [hr]
    cases r with
    | none => exact copyLoop_ends hend hparsed hinside
    | some ph =>
      obtain ⟨hph, hinside⟩ := List.forall_mem_cons.mp hinside
      obtain ⟨hbase, hlast, hsize⟩ := hph
      have hfailed : Ends (pure (.error .segmentOutOfBounds)) s
          (fun (r : Except Uefi.LoadError Unit) s' => WritesInside ⟨physicalBase, size⟩ s s' ∧ (r = .ok () →
            (∀ q ∈ ph :: segmentsOf image header rest, q.fileOffset + q.fileSize ≤ image.length) ∧
            s'.mem = (ph :: segmentsOf image header rest).foldl (copied image virtualBase physicalBase)
              s.mem)) fun _ => False :=
        ⟨writesInside_refl _ s, fun h => by cases h⟩
      dsimp only
      split
      · exact hfailed
      · next hadd =>
        obtain ⟨-, rfl⟩ := checkedAdd_eq_some.mp hadd
        split
        · exact hfailed
        · next hin =>
          rw [ends_bind, ends_ensure]
          refine ⟨fun _ => ?_, fun h => absurd hbase (of_decide_eq_false h)⟩
          rw [ends_bind, ends_ensure]
          refine ⟨fun _ => ?_, fun h => of_decide_eq_false h ?_⟩
          · rw [ends_bind, ends_fill]
            refine (copyLoop_ends hend hparsed hinside).mono ?_ fun _ h => h
            rintro r s' ⟨hwrites, hok⟩
            refine ⟨WritesInside.trans ⟨[_], rfl, fun w hw => ?_⟩ hwrites, fun hr => ?_⟩
            · rw [List.mem_singleton.mp hw]
              constructor
              · exact Nat.le_add_right _ _
              · dsimp only
                omega
            · obtain ⟨hfiles, hmem⟩ := hok hr
              exact ⟨List.forall_mem_cons.mpr ⟨Nat.le_of_not_lt hin, hfiles⟩, hmem⟩
          · omega

theorem foldl_copied_of_outside {a : Nat} : ∀ {segments : List Uefi.ProgramHeader} {mem : Nat → UInt8},
    (∀ ph ∈ segments, ¬ (physicalBase + (ph.virtualAddress - virtualBase) ≤ a ∧
      a < physicalBase + (ph.virtualAddress - virtualBase) + ph.fileSize)) →
    segments.foldl (copied image virtualBase physicalBase) mem a = mem a
  | [], _, _ => rfl
  | ph :: rest, mem, h => by
    obtain ⟨hph, hrest⟩ := List.forall_mem_cons.mp h
    rw [List.foldl_cons, foldl_copied_of_outside hrest, copied, if_neg hph]

/-- No copy of another segment reaches a byte of this one. -/
theorem outside_of_disjoint {ph q : Uefi.ProgramHeader} {i : Nat} (hph : Inside virtualBase size ph)
    (hq : Inside virtualBase size q) (h : ph.span.Disjoint q.span) (hi : i < ph.memorySize) :
    ¬ (physicalBase + (q.virtualAddress - virtualBase) ≤
        physicalBase + (ph.virtualAddress + i - virtualBase) ∧
      physicalBase + (ph.virtualAddress + i - virtualBase) <
        physicalBase + (q.virtualAddress - virtualBase) + q.fileSize) := by
  obtain ⟨hphBase, -, -⟩ := hph
  obtain ⟨hqBase, -, hqSize⟩ := hq
  simp only [Span.Disjoint, Uefi.ProgramHeader.span] at h
  omega

/-- The bytes of a segment after all copies, if no two segments overlap. -/
theorem foldl_copied {ph : Uefi.ProgramHeader} {i : Nat} (hi : i < ph.memorySize) :
    ∀ {segments : List Uefi.ProgramHeader} {mem : Nat → UInt8},
      (∀ q ∈ segments, Inside virtualBase size q) →
      segments.Pairwise (fun p q => p.span.Disjoint q.span) → ph ∈ segments →
      segments.foldl (copied image virtualBase physicalBase) mem
          (physicalBase + (ph.virtualAddress + i - virtualBase)) =
        if i < ph.fileSize then image.getD (ph.fileOffset + i) 0
        else mem (physicalBase + (ph.virtualAddress + i - virtualBase))
  | q :: rest, mem, hinside, hdisjoint, hmem => by
    obtain ⟨hq, hrest⟩ := List.forall_mem_cons.mp hinside
    obtain ⟨hqRest, hdisjoint⟩ := List.pairwise_cons.mp hdisjoint
    rw [List.foldl_cons]
    rcases List.mem_cons.mp hmem with heq | hmem
    · -- the copy of this segment; the later ones do not touch it
      subst heq
      have hlater : ∀ p ∈ rest, ¬ (physicalBase + (p.virtualAddress - virtualBase) ≤
          physicalBase + (ph.virtualAddress + i - virtualBase) ∧
        physicalBase + (ph.virtualAddress + i - virtualBase) <
          physicalBase + (p.virtualAddress - virtualBase) + p.fileSize) :=
        fun p hp => outside_of_disjoint hq (hrest p hp) (hqRest p hp) hi
      have hbase := hq.1
      have hoffset : physicalBase + (ph.virtualAddress + i - virtualBase) -
          (physicalBase + (ph.virtualAddress - virtualBase)) = i := by omega
      rw [foldl_copied_of_outside hlater]
      simp only [copied, hoffset]
      refine if_congr ?_ rfl rfl
      omega
    · rw [foldl_copied hi hrest hdisjoint hmem]
      refine if_congr Iff.rfl rfl ?_
      exact if_neg (outside_of_disjoint (hrest ph hmem) hq (hqRest ph hmem).symm hi)

theorem segmentsOf_fileSize {indices : List Nat} {ph : Uefi.ProgramHeader}
    (h : ph ∈ segmentsOf image header indices) : ph.fileSize ≤ ph.memorySize := by
  obtain ⟨index, -, hindex⟩ := List.mem_filterMap.mp h
  cases hr : Uefi.parseProgramHeader image header index with
  | error e =>
    rw [hr] at hindex
    cases hindex
  | ok r =>
    rw [hr] at hindex
    have hsome : r = some ph := Option.join_eq_some_iff.mp hindex |> Option.some.inj
    subst hsome
    exact fileSize_le hr

theorem Planned.inside {p : Plan} (h : Planned image p) :
    ∀ ph ∈ p.segments image, Inside p.virtualBase (p.pageCount * 4096) ph := by
  intro ph hph
  have hgreatest := h.greatest ph hph
  have hpages := h.pages
  exact ⟨h.least ph hph, by omega, segmentsOf_fileSize hph⟩

/-- `load_kernel` with a plan and pages: the pages are cleared, and then the segments are copied. -/
theorem loadKernel_ends {allocatePages : Nat → Except Nat Nat} {p : Plan} (hplan : plan image = .ok p)
    (halloc : allocatePages p.pageCount = .ok physicalBase)
    (hpages : physicalBase + p.pageCount * 4096 ≤ 2 ^ 52) (s : LoaderMemory) :
    Ends (loadKernel allocatePages image) s
      (fun r s' => WritesInside ⟨physicalBase, p.pageCount * 4096⟩ s s' ∧ ∀ kernel, r = .ok kernel →
        kernel = ⟨p.header.entryPoint, p.virtualBase, physicalBase, p.imageSize⟩ ∧
        (∀ ph ∈ p.segments image, ph.fileOffset + ph.fileSize ≤ image.length) ∧
        s'.mem = (p.segments image).foldl (copied image p.virtualBase physicalBase) fun a =>
          if physicalBase ≤ a ∧ a < physicalBase + p.pageCount * 4096 then 0 else s.mem a)
      fun _ => False := by
  have hplanned := planned_of_plan hplan
  unfold loadKernel
  rw [hplan]
  dsimp only
  rw [halloc]
  dsimp only
  rw [ends_bind, ends_ensure]
  refine ⟨fun _ => ?_, fun h => of_decide_eq_false h (by omega)⟩
  rw [ends_bind, ends_fill, ends_bind]
  refine (copyLoop_ends hpages hplanned.parsed hplanned.inside).mono ?_ fun _ h => h
  rintro r s' ⟨hwrites, hok⟩
  have hwrites' : WritesInside ⟨physicalBase, p.pageCount * 4096⟩ s s' := by
    refine WritesInside.trans ⟨[_], rfl, fun w hw => ?_⟩ hwrites
    rw [List.mem_singleton.mp hw]
    exact .refl _
  cases r with
  | error e => exact ⟨hwrites', fun kernel h => by cases h⟩
  | ok u =>
    refine ⟨hwrites', fun kernel h => ?_⟩
    cases h
    exact ⟨rfl, hok rfl⟩

end KernelImageLemmas

open Uefi KernelImageLemmas

/-- The image of the kernel. Given the pages it has asked for, anywhere in the 52 bits of physical
addresses, `load_kernel` does not panic and writes to these pages only, also if it returns an error. If it
returns `Ok` then `virtual_base` is the least address of a segment, aligned, and `virtual_base + image_size`
the greatest end of one; and if no two segments overlap, the bytes of every segment are in place, followed
by zeros. -/
theorem kernel_image_loaded {allocatePages : Nat → Except Nat Nat} {image : List UInt8} {p : Plan}
    (hplan : plan image = .ok p) {physicalBase : Nat} (halloc : allocatePages p.pageCount = .ok physicalBase)
    (hpages : physicalBase + p.pageCount * 4096 ≤ 2 ^ 52) (s : LoaderMemory) :
    ∃ r s', (loadKernel allocatePages image).result s = some (r, s') ∧
      (∃ log, s'.writes = s.writes ++ log ∧
        ∀ w ∈ log, w.Within ⟨physicalBase, p.pageCount * 4096⟩) ∧
      ∀ kernel, r = .ok kernel → kernel.physicalBase = physicalBase ∧
        4096 ∣ kernel.virtualBase ∧
        (∀ ph ∈ p.segments image, kernel.virtualBase ≤ ph.virtualAddress ∧
          ph.virtualAddress + ph.memorySize ≤ kernel.virtualBase + kernel.imageSize) ∧
        (∃ ph ∈ p.segments image, kernel.virtualBase = ph.virtualAddress) ∧
        (∃ ph ∈ p.segments image,
          kernel.virtualBase + kernel.imageSize = ph.virtualAddress + ph.memorySize) ∧
        ((p.segments image).Pairwise (fun ph q => ph.span.Disjoint q.span) →
          ∀ ph ∈ p.segments image, ∀ i < ph.memorySize,
            if i < ph.fileSize then
              image[ph.fileOffset + i]? =
                some (s'.mem (physicalBase + (ph.virtualAddress + i - kernel.virtualBase)))
            else s'.mem (physicalBase + (ph.virtualAddress + i - kernel.virtualBase)) = 0) := by
  have hplanned := planned_of_plan hplan
  have hinside := hplanned.inside
  obtain ⟨r, s', hresult, hwrites, hok⟩ := (loadKernel_ends hplan halloc hpages s).total
  refine ⟨r, s', hresult, hwrites, fun kernel hkernel => ?_⟩
  obtain ⟨rfl, hfiles, hmem⟩ := hok kernel hkernel
  refine ⟨rfl, hplanned.aligned, fun ph hph => ⟨hplanned.least ph hph, hplanned.greatest ph hph⟩,
    hplanned.base_eq, hplanned.end_eq, fun hdisjoint ph hph i hi => ?_⟩
  have hbyte := congrFun hmem (physicalBase + (ph.virtualAddress + i - p.virtualBase))
  rw [foldl_copied hi hinside hdisjoint hph] at hbyte
  dsimp only
  rw [hbyte]
  split
  · next hfile =>
    have hin := hfiles ph hph
    rw [List.getD_eq_getElem?_getD, List.getElem?_eq_getElem (by omega)]
    rfl
  · obtain ⟨hbase, hlast, -⟩ := hinside ph hph
    rw [if_pos]
    omega

/-- The two segments of the sample are in place, each one followed by zeros, whatever was there before. -/
theorem kernel_image_loaded_sample :
    ∃ s', (loadKernel (fun _ => .ok 0x200000) sampleElf).result ⟨fun _ => 0xAA, []⟩ =
        some (.ok ⟨0x400000, 0x400000, 0x200000, 0x1004⟩, s') ∧
      sampleElf[194]? = some (s'.mem 0x200002) ∧ s'.mem 0x200003 = 0 ∧
      sampleElf[196]? = some (s'.mem 0x201001) ∧ s'.mem 0x201002 = 0 := by
  have hplan : plan sampleElf = .ok ⟨⟨0x400000, 64, 64, 2⟩, 0x400000, 0x1004, 2⟩ := by decide +kernel
  have hsegments : Plan.segments ⟨⟨0x400000, 64, 64, 2⟩, 0x400000, 0x1004, 2⟩ sampleElf =
      [⟨192, 0x400000, 0, 3, 5⟩, ⟨195, 0x401000, 0, 2, 4⟩] := by decide +kernel
  obtain ⟨r, s', hresult, -, hok⟩ := @kernel_image_loaded (fun _ => .ok 0x200000) _ _ hplan _ rfl
    (by decide) ⟨fun _ => 0xAA, []⟩
  have hr : (loadKernel (fun _ => .ok 0x200000) sampleElf ⟨fun _ => 0xAA, []⟩).1 =
      some (.ok ⟨0x400000, 0x400000, 0x200000, 0x1004⟩) := by decide +kernel
  rw [result_eq_some.mp hresult] at hr
  cases hr
  rw [hsegments] at hok
  obtain ⟨-, -, -, -, -, hbytes⟩ := hok _ rfl
  have hbytes := hbytes (by decide)
  have htext := hbytes _ List.mem_cons_self
  have hdata := hbytes _ (List.mem_cons_of_mem _ List.mem_cons_self)
  exact ⟨s', hresult, htext 2 (by decide), htext 3 (by decide), hdata 1 (by decide), hdata 2 (by decide)⟩

end Turnix
