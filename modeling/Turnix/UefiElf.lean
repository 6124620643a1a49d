import Turnix.ElfTable

/-!
# The ELF parser of the loader

`boot/uefi-loader/src/elf.rs` has a second parser of the format, with fewer fields, with errors that carry
the rejected value, and with reads through `get` of a checked range. `elf_parsers_agree`: apart from the
version byte and the alignment of a segment, which only the loader tests, the two accept the same images
and read the same fields.
-/

namespace Turnix

open Lib

namespace Uefi

/-- `LoadError`; the status of a failed allocation is the number that UEFI gives it. -/
inductive LoadError
  | fileTooSmall
  | badMagic
  | unsupportedClass (v : Nat)
  | unsupportedEndian (v : Nat)
  | unsupportedVersion (v : Nat)
  | unsupportedType (v : Nat)
  | unsupportedMachine (v : Nat)
  | invalidProgramHeaderSize (v : Nat)
  | programHeaderOutOfBounds
  | segmentOutOfBounds
  | segmentAlignment (v : Nat)
  | segmentAddressOverflow
  | noLoadSegments
  | allocationFailed (status : Nat)
deriving DecidableEq, Repr

/-- `ElfHeader`. -/
structure ElfHeader where
  entryPoint : Nat
  programHeaderOffset : Nat
  programHeaderEntrySize : Nat
  programHeaderCount : Nat
deriving DecidableEq, Repr

/-- `ProgramHeader`. -/
structure ProgramHeader where
  fileOffset : Nat
  virtualAddress : Nat
  physicalAddress : Nat
  fileSize : Nat
  memorySize : Nat
deriving DecidableEq, Repr

/-- An integer of `n` bytes, read through `bytes.get(offset..end)`. -/
def readLe (n : Nat) (bytes : List UInt8) (offset : Nat) : Except LoadError Nat :=
  match checkedAdd offset n with
  | none => .error .programHeaderOutOfBounds
  | some stop =>
    match getRange bytes offset stop with
    | none => .error .programHeaderOutOfBounds
    | some slice => .ok (fromLeBytes slice)

/-- `read_u16`. -/
def readU16 (bytes : List UInt8) (offset : Nat) : Except LoadError Nat := readLe 2 bytes offset

/-- `read_u32`. -/
def readU32 (bytes : List UInt8) (offset : Nat) : Except LoadError Nat := readLe 4 bytes offset

/-- `read_u64`. -/
def readU64 (bytes : List UInt8) (offset : Nat) : Except LoadError Nat := readLe 8 bytes offset

/-- `parse_header`. -/
def parseHeader (image : List UInt8) : Except LoadError ElfHeader :=
  if image.length < 64 then .error .fileTooSmall
  else if image.take 4 ≠ [0x7F, 0x45, 0x4C, 0x46] then .error .badMagic
  else if leAt image 4 1 ≠ 2 then .error (.unsupportedClass (leAt image 4 1))
  else if leAt image 5 1 ≠ 1 then .error (.unsupportedEndian (leAt image 5 1))
  else if leAt image 6 1 ≠ 1 then .error (.unsupportedVersion (leAt image 6 1))
  else do
    let elfType ← readU16 image 16
    if elfType ≠ 2 ∧ elfType ≠ 3 then .error (.unsupportedType elfType) else do
    let machine ← readU16 image 18
    if machine ≠ 62 then .error (.unsupportedMachine machine) else do
    let programHeaderEntrySize ← readU16 image 54
    if programHeaderEntrySize < 56 then
      .error (.invalidProgramHeaderSize programHeaderEntrySize) else do
    let entryPoint ← readU64 image 24
    let programHeaderOffset ← readU64 image 32
    let programHeaderCount ← readU16 image 56
    .ok ⟨entryPoint, programHeaderOffset, programHeaderEntrySize, programHeaderCount⟩

/-- The range `start..end` of the program header with this index, or `none` on an overflow. -/
def programHeaderRange (header : ElfHeader) (index : Nat) : Option (Nat × Nat) := do
  let start ← checkedAdd header.programHeaderOffset
    (← checkedMul index header.programHeaderEntrySize)
  let stop ← checkedAdd start header.programHeaderEntrySize
  return (start, stop)

/-- `parse_program_header`. -/
def parseProgramHeader (image : List UInt8) (header : ElfHeader) (index : Nat) :
    Except LoadError (Option ProgramHeader) :=
  match programHeaderRange header index with
  | none => .error .programHeaderOutOfBounds
  | some (start, stop) =>
    if stop > image.length then .error .programHeaderOutOfBounds else do
    let programHeader := (image.drop start).take (stop - start)
    if (← readU32 programHeader 0) ≠ 1 then .ok none else do
    let virtualAddress ← readU64 programHeader 16
    let physicalAddress ← readU64 programHeader 24
    if virtualAddress &&& 0xFFF ≠ 0 then .error (.segmentAlignment virtualAddress) else do
    let fileSize ← readU64 programHeader 32
    let memorySize ← readU64 programHeader 40
    if memorySize < fileSize then .error .segmentOutOfBounds else do
    let fileOffset ← readU64 programHeader 8
    .ok (some ⟨fileOffset, virtualAddress, physicalAddress, fileSize, memorySize⟩)

end Uefi

open ElfLemmas

namespace UefiLemmas

variable {image : List UInt8}

theorem readLe_eq_ok {n offset : Nat} (h : offset + n ≤ image.length) (h64 : offset + n < 2 ^ 64) :
    Uefi.readLe n image offset = .ok (leAt image offset n) := by
  have hadd : checkedAdd offset n = some (offset + n) := checkedAdd_eq_some.mpr ⟨h64, rfl⟩
  unfold Uefi.readLe
  rw [hadd]
  dsimp only
  rw [getRange_eq_some h]
  rfl

/-- A field of an entry, read from the slice of the entry, is the field of the image. -/
theorem readLe_slice {n offset start size : Nat} (hsize : 56 ≤ size) (hin : offset + n ≤ 56)
    (h : start + size ≤ image.length) :
    Uefi.readLe n ((image.drop start).take (start + size - start)) offset =
      .ok (leAt image (start + offset) n) := by
  rw [Nat.add_sub_cancel_left]
  have hlen : offset + n ≤ ((image.drop start).take size).length := by
    rw [List.length_take, List.length_drop]
    omega
  rw [readLe_eq_ok hlen (by omega)]
  unfold leAt
  rw [List.drop_take, List.take_take, List.drop_drop, Nat.min_eq_left (by omega)]

/-- The loader's view of a header of the kernel. -/
def loaderHeader (header : ElfHeader) : Uefi.ElfHeader :=
  ⟨header.entry, header.programHeaderOffset, header.programHeaderEntrySize, header.programHeaderCount⟩

theorem uefi_parseHeader_eq_ok_iff {header : Uefi.ElfHeader} :
    Uefi.parseHeader image = .ok header ↔ HeaderAccepted image ∧ leAt image 6 1 = 1 ∧
      header = loaderHeader (headerAt image) := by
  unfold Uefi.parseHeader Uefi.readU16 Uefi.readU64
  by_cases hlong : 64 ≤ image.length
  · have hread : ∀ {offset n : Nat}, offset + n ≤ 64 →
        Uefi.readLe n image offset = .ok (leAt image offset n) :=
      fun h => readLe_eq_ok (by omega) (by omega)
    simp only [hread (show 16 + 2 ≤ 64 by decide), hread (show 18 + 2 ≤ 64 by decide),
      hread (show 54 + 2 ≤ 64 by decide), hread (show 24 + 8 ≤ 64 by decide),
      hread (show 32 + 8 ≤ 64 by decide), hread (show 56 + 2 ≤ 64 by decide), bind, Except.bind]
    constructor
    · intro h
      obtain ⟨-, h⟩ := ite_error_eq_ok.mp h
      obtain ⟨hmagic, h⟩ := ite_error_eq_ok.mp h
      obtain ⟨hclass, h⟩ := ite_error_eq_ok.mp h
      obtain ⟨hendian, h⟩ := ite_error_eq_ok.mp h
      obtain ⟨hversion, h⟩ := ite_error_eq_ok.mp h
      obtain ⟨htype, h⟩ := ite_error_eq_ok.mp h
      obtain ⟨hmachine, h⟩ := ite_error_eq_ok.mp h
      obtain ⟨hsize, h⟩ := ite_error_eq_ok.mp h
      refine ⟨⟨hlong, Decidable.of_not_not hmagic, Decidable.of_not_not hclass,
        Decidable.of_not_not hendian, by omega, Decidable.of_not_not hmachine, by omega⟩,
        Decidable.of_not_not hversion, ?_⟩
      exact (Except.ok.inj h).symm
    · rintro ⟨h, hversion, rfl⟩
      have htype := h.eType
      rw [if_neg (Nat.not_lt.mpr h.long), if_neg (not_not_intro h.magic),
        if_neg (not_not_intro h.class64), if_neg (not_not_intro h.littleEndian),
        if_neg (not_not_intro hversion), if_neg (by omega), if_neg (not_not_intro h.eMachine),
        if_neg (Nat.not_lt.mpr h.ePhentsize)]
      rfl
  · rw [if_pos (by omega)]
    exact ⟨nofun, fun h => absurd h.1.long hlong⟩

/-- The loader's view of a program header of the kernel. -/
def loaderSegment (p : ProgramHeader) : Uefi.ProgramHeader :=
  ⟨p.fileOffset, p.virtualAddress, p.physicalAddress, p.fileSize, p.memorySize⟩

theorem uefi_parseProgramHeader_eq_ok_iff {header : ElfHeader} {index : Nat}
    (hsize : 56 ≤ header.programHeaderEntrySize) {r : Option Uefi.ProgramHeader} :
    Uefi.parseProgramHeader image (loaderHeader header) index = .ok r ↔
      ∃ start, EntryAt image header index start ∧
        (leAt image start 4 ≠ 1 ∧ r = none ∨ leAt image start 4 = 1 ∧
          4096 ∣ leAt image (start + 16) 8 ∧
          leAt image (start + 32) 8 ≤ leAt image (start + 40) 8 ∧
          r = some (loaderSegment (programHeaderAt image start))) := by
  have hrange : Uefi.programHeaderRange (loaderHeader header) index =
      programHeaderRange header index := rfl
  have haligned : ∀ x, x &&& 0xFFF ≠ 0 ↔ ¬ 4096 ∣ x := by
    intro x
    rw [show 0xFFF = 2 ^ 12 - 1 from rfl, Nat.and_two_pow_sub_one_eq_mod, Nat.dvd_iff_mod_eq_zero]
  unfold Uefi.parseProgramHeader EntryAt
  rw [hrange]
  rcases hp : programHeaderRange header index with _ | ⟨start, stop⟩
  · constructor
    · intro h
      cases h
    · rintro ⟨start, ⟨h, -⟩, -⟩
      cases h
  · obtain ⟨-, rfl⟩ := programHeaderRange_eq_some hp
    dsimp only
    by_cases hin : start + header.programHeaderEntrySize ≤ image.length
    · rw [if_neg (Nat.not_lt.mpr hin)]
      unfold Uefi.readU32 Uefi.readU64
      simp only [readLe_slice hsize (show 0 + 4 ≤ 56 by decide) hin,
        readLe_slice hsize (show 16 + 8 ≤ 56 by decide) hin,
        readLe_slice hsize (show 24 + 8 ≤ 56 by decide) hin,
        readLe_slice hsize (show 32 + 8 ≤ 56 by decide) hin,
        readLe_slice hsize (show 40 + 8 ≤ 56 by decide) hin,
        readLe_slice hsize (show 8 + 8 ≤ 56 by decide) hin, bind, Except.bind, Nat.add_zero, haligned]
      constructor
      · intro h
        refine ⟨start, ⟨rfl, hin⟩, ?_⟩
        by_cases htype : leAt image start 4 = 1
        · rw [if_neg (not_not_intro htype)] at h
          obtain ⟨halign, h⟩ := ite_error_eq_ok.mp h
          obtain ⟨hle, h⟩ := ite_error_eq_ok.mp h
          exact .inr ⟨htype, Decidable.of_not_not halign, Nat.le_of_not_lt hle,
            (Except.ok.inj h).symm⟩
        · rw [if_pos htype] at h
          exact .inl ⟨htype, (Except.ok.inj h).symm⟩
      · rintro ⟨start', ⟨hstart, -⟩, h⟩
        cases hstart
        rcases h with ⟨htype, rfl⟩ | ⟨htype, halign, hle, rfl⟩
        · rw [if_pos htype]
        · rw [if_neg (not_not_intro htype), if_neg (not_not_intro halign),
            if_neg (Nat.not_lt.mpr hle)]
          rfl
    · rw [if_pos (Nat.not_le.mp hin)]
      constructor
      · intro h
        cases h
      · rintro ⟨start', ⟨hstart, hin'⟩, -⟩
        cases hstart
        exact absurd hin' hin

/-- The parsers of one program header agree. -/
theorem segments_agree {header : ElfHeader} {index : Nat}
    (hsize : 56 ≤ header.programHeaderEntrySize) :
    (Uefi.parseProgramHeader image (loaderHeader header) index = .ok none ↔
      parseProgramHeader image header index = .ok none) ∧
    (∀ p, Uefi.parseProgramHeader image (loaderHeader header) index = .ok (some p) →
      ∃ q, parseProgramHeader image header index = .ok (some q) ∧ p = loaderSegment q) ∧
    ∀ q, parseProgramHeader image header index = .ok (some q) → 4096 ∣ q.virtualAddress →
      Uefi.parseProgramHeader image (loaderHeader header) index = .ok (some (loaderSegment q)) := by
  refine ⟨⟨fun h => ?_, fun h => ?_⟩, fun p hp => ?_, fun q hq haligned => ?_⟩
  · obtain ⟨start, hat, ⟨htype, -⟩ | ⟨-, -, -, h⟩⟩ := (uefi_parseProgramHeader_eq_ok_iff hsize).mp h
    · exact (parseProgramHeader_eq_ok_iff hsize).mpr ⟨start, hat, .inl ⟨htype, rfl⟩⟩
    · cases h
  · obtain ⟨start, hat, ⟨htype, -⟩ | ⟨-, -, h⟩⟩ := (parseProgramHeader_eq_ok_iff hsize).mp h
    · exact (uefi_parseProgramHeader_eq_ok_iff hsize).mpr ⟨start, hat, .inl ⟨htype, rfl⟩⟩
    · cases h
  · obtain ⟨start, hat, ⟨-, h⟩ | ⟨htype, -, hle, h⟩⟩ :=
      (uefi_parseProgramHeader_eq_ok_iff hsize).mp hp
    · cases h
    · exact ⟨programHeaderAt image start,
        (parseProgramHeader_eq_ok_iff hsize).mpr ⟨start, hat, .inr ⟨htype, hle, rfl⟩⟩,
        Option.some.inj h⟩
  · obtain ⟨start, hat, ⟨-, h⟩ | ⟨htype, hle, h⟩⟩ := (parseProgramHeader_eq_ok_iff hsize).mp hq
    · cases h
    · obtain rfl := Option.some.inj h
      exact (uefi_parseProgramHeader_eq_ok_iff hsize).mpr
        ⟨start, hat, .inr ⟨htype, haligned, hle, rfl⟩⟩

end UefiLemmas

open UefiLemmas

/-- The two parsers of the repository agree, on every byte string and for every index. -/
theorem elf_parsers_agree (d : List UInt8) :
    (∀ h, Uefi.parseHeader d = .ok h → ∃ k, parseHeader d = .ok k ∧ h.entryPoint = k.entry ∧
      h.programHeaderOffset = k.programHeaderOffset ∧
      h.programHeaderEntrySize = k.programHeaderEntrySize ∧
      h.programHeaderCount = k.programHeaderCount) ∧
    (∀ k, parseHeader d = .ok k → d[6]? = some 1 → ∃ h, Uefi.parseHeader d = .ok h) ∧
    ∀ h k, Uefi.parseHeader d = .ok h → parseHeader d = .ok k → ∀ i, i < 2 ^ 16 →
      (Uefi.parseProgramHeader d h i = .ok none ↔ parseProgramHeader d k i = .ok none) ∧
      (∀ p, Uefi.parseProgramHeader d h i = .ok (some p) → ∃ q,
        parseProgramHeader d k i = .ok (some q) ∧ p.fileOffset = q.fileOffset ∧
        p.virtualAddress = q.virtualAddress ∧ p.fileSize = q.fileSize ∧
        p.memorySize = q.memorySize) ∧
      ∀ q, parseProgramHeader d k i = .ok (some q) → 4096 ∣ q.virtualAddress → ∃ p,
        Uefi.parseProgramHeader d h i = .ok (some p) ∧ p.fileOffset = q.fileOffset ∧
        p.virtualAddress = q.virtualAddress ∧ p.fileSize = q.fileSize ∧
        p.memorySize = q.memorySize := by
  refine ⟨fun h hh => ?_, fun k hk h6 => ?_, fun h k hh hk i _ => ?_⟩
  · obtain ⟨haccepted, -, rfl⟩ := uefi_parseHeader_eq_ok_iff.mp hh
    exact ⟨_, parseHeader_eq_ok_iff.mpr ⟨haccepted, rfl⟩, rfl, rfl, rfl, rfl⟩
  · obtain ⟨haccepted, -⟩ := parseHeader_eq_ok_iff.mp hk
    have hversion : leAt d 6 1 = 1 := by
      obtain ⟨hlt, h6⟩ := List.getElem?_eq_some_iff.mp h6
      unfold leAt
      rw [List.drop_eq_getElem_cons hlt, h6]
      rfl
    exact ⟨_, uefi_parseHeader_eq_ok_iff.mpr ⟨haccepted, hversion, rfl⟩⟩
  · obtain ⟨-, -, rfl⟩ := uefi_parseHeader_eq_ok_iff.mp hh
    obtain ⟨haccepted, rfl⟩ := parseHeader_eq_ok_iff.mp hk
    have hsize : 56 ≤ (headerAt d).programHeaderEntrySize := haccepted.ePhentsize
    obtain ⟨hnone, hsome, hsome'⟩ := segments_agree hsize
    refine ⟨hnone, fun p hp => ?_, fun q hq haligned => ?_⟩
    · obtain ⟨q, hq, rfl⟩ := hsome p hp
      exact ⟨q, hq, rfl, rfl, rfl, rfl⟩
    · exact ⟨_, hsome' q hq haligned, rfl, rfl, rfl, rfl⟩

theorem elf_parsers_agree_sample :
    (∃ h, Uefi.parseHeader sampleElf = .ok h) ∧ ∃ p,
      Uefi.parseProgramHeader sampleElf ⟨0x400000, 64, 64, 2⟩ 1 = .ok (some p) ∧
      p.fileOffset = 195 ∧ p.virtualAddress = 0x401000 ∧ p.fileSize = 2 ∧ p.memorySize = 4 := by
  have hkernel : parseHeader sampleElf = .ok ⟨0x400000, 64, 64, 2⟩ := by decide +kernel
  have hloader : Uefi.parseHeader sampleElf = .ok ⟨0x400000, 64, 64, 2⟩ := by decide +kernel
  have hsegment : parseProgramHeader sampleElf ⟨0x400000, 64, 64, 2⟩ 1 =
    .ok (some ⟨195, 0x401000, 0, 2, 4, 6, 4096⟩) := by decide +kernel
  obtain ⟨-, hheader, htable⟩ := elf_parsers_agree sampleElf
  exact ⟨hheader _ hkernel (by decide +kernel),
    (htable _ _ hloader hkernel 1 (by decide)).2.2 _ hsegment (by decide)⟩

end Turnix
