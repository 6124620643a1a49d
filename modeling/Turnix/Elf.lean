import Turnix.Lib.Rust

/-!
# The ELF parser of the kernel

`kernel/src/elf.rs`. A byte of the image is only read behind a test of its length: the header
behind the 64 bytes, a program header behind `end <= data.len()` with entries of at least 56 bytes.
-/

namespace Turnix

open Lib

/-- `PF_X`. -/
def pfX : Nat := 1

/-- `PF_W`. -/
def pfW : Nat := 2

/-- `ElfHeader`. -/
structure ElfHeader where
  entry : Nat
  programHeaderOffset : Nat
  programHeaderEntrySize : Nat
  programHeaderCount : Nat
deriving DecidableEq, Repr

/-- `ProgramHeader`. -/
structure ProgramHeader where
  fileOffset : Nat
  virtualAddress : Nat
  physicalAddress : Nat
  fileSize : Nat
  memorySize : Nat
  flags : Nat
  align : Nat
deriving DecidableEq, Repr

/-- `ParseError`. -/
inductive ParseError
  | fileTooSmall
  | badMagic
  | unsupportedClass
  | unsupportedEndian
  | unsupportedType
  | unsupportedMachine
  | invalidProgramHeaderSize
  | programHeaderOutOfBounds
deriving DecidableEq, Repr

/-- The derived `Debug` text. -/
def ParseError.debug : ParseError → String
  | fileTooSmall => "FileTooSmall"
  | badMagic => "BadMagic"
  | unsupportedClass => "UnsupportedClass"
  | unsupportedEndian => "UnsupportedEndian"
  | unsupportedType => "UnsupportedType"
  | unsupportedMachine => "UnsupportedMachine"
  | invalidProgramHeaderSize => "InvalidProgramHeaderSize"
  | programHeaderOutOfBounds => "ProgramHeaderOutOfBounds"

/-- The little-endian integer in `n` bytes from `offset` on. -/
def leAt (data : List UInt8) (offset n : Nat) : Nat := fromLeBytes ((data.drop offset).take n)

/-- `parse_header`. -/
def parseHeader (data : List UInt8) : Except ParseError ElfHeader :=
  if data.length < 64 then .error .fileTooSmall
  else if data.take 4 ≠ [0x7F, 0x45, 0x4C, 0x46] then .error .badMagic
  else if leAt data 4 1 ≠ 2 then .error .unsupportedClass
  else if leAt data 5 1 ≠ 1 then .error .unsupportedEndian
  else
    let eType := leAt data 16 2
    if eType ≠ 2 ∧ eType ≠ 3 then .error .unsupportedType
    else if leAt data 18 2 ≠ 62 then .error .unsupportedMachine
    else
      let ePhoff := leAt data 32 8
      let ePhentsize := leAt data 54 2
      let ePhnum := leAt data 56 2
      if ePhentsize < 56 then .error .invalidProgramHeaderSize
      else .ok ⟨leAt data 24 8, ePhoff, ePhentsize, ePhnum⟩

/-- The range `start..end` of the program header with this index, or `none` on an overflow. -/
def programHeaderRange (header : ElfHeader) (index : Nat) : Option (Nat × Nat) := do
  let start ← checkedAdd header.programHeaderOffset
    (← checkedMul index header.programHeaderEntrySize)
  let stop ← checkedAdd start header.programHeaderEntrySize
  return (start, stop)

/-- `parse_program_header`. -/
def parseProgramHeader (data : List UInt8) (header : ElfHeader) (index : Nat) :
    Except ParseError (Option ProgramHeader) :=
  match programHeaderRange header index with
  | none => .error .programHeaderOutOfBounds
  | some (start, stop) =>
    if start ≥ data.length ∨ stop > data.length then .error .programHeaderOutOfBounds
    else if leAt data start 4 ≠ 1 then .ok none
    else
      let flags := leAt data (start + 4) 4
      let fileOffset := leAt data (start + 8) 8
      let virtualAddress := leAt data (start + 16) 8
      let physicalAddress := leAt data (start + 24) 8
      let fileSize := leAt data (start + 32) 8
      let memorySize := leAt data (start + 40) 8
      let align := leAt data (start + 48) 8
      if fileSize > memorySize then .error .programHeaderOutOfBounds
      else .ok (some ⟨fileOffset, virtualAddress, physicalAddress, fileSize, memorySize, flags,
        align⟩)

/-! ## The bytes that are read

Each is the offset and the length of a part of the image. The parser stops at the first test that fails. -/

/-- What `parse_header` reads. -/
def headerReads (data : List UInt8) : List (Nat × Nat) :=
  if data.length < 64 then []
  else (0, 4) :: if data.take 4 ≠ [0x7F, 0x45, 0x4C, 0x46] then []
  else (4, 1) :: if leAt data 4 1 ≠ 2 then []
  else (5, 1) :: if leAt data 5 1 ≠ 1 then []
  else (16, 2) :: if leAt data 16 2 ≠ 2 ∧ leAt data 16 2 ≠ 3 then []
  else (18, 2) :: if leAt data 18 2 ≠ 62 then []
  else (32, 8) :: (54, 2) :: (56, 2) :: if leAt data 54 2 < 56 then []
  else [(24, 8)]

/-- What `parse_program_header` reads: the type, and the rest of a segment to load. -/
def programHeaderReads (data : List UInt8) (header : ElfHeader) (index : Nat) : List (Nat × Nat) :=
  match programHeaderRange header index with
  | none => []
  | some (start, stop) =>
    if start ≥ data.length ∨ stop > data.length then []
    else (start, 4) :: if leAt data start 4 ≠ 1 then []
    else [(start + 4, 52)]

end Turnix
