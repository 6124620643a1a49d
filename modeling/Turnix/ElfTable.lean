import Turnix.Elf

/-!
# The ELF parser, byte by byte

`parse_header` and `parse_program_header` of the kernel with every index that they use
(`parseHeaderIndexed`, `parseProgramHeaderIndexed`): an index that is out of range is a panic. They
compute what `parseHeader` and `parseProgramHeader` do, so there is none. `elf_table_exact`: from an
image that holds a header and a table of records, at any stride and with anything else between them,
they read exactly these.
-/

namespace Turnix

open Lib

/-! ## Indexing -/

/-- `[data[start + k], ..]` for the offsets `k` of a list. -/
def indexBytes (data : List UInt8) (start : Nat) : List Nat → Except Panic (List UInt8)
  | [] => .ok []
  | k :: ks => do
    let b ← byteAt data (← add64 start k)
    let bs ← indexBytes data start ks
    return b :: bs

/-- `uN::from_le_bytes([data[start + offset], ..])` of `n` bytes. -/
def leIndexed (data : List UInt8) (start offset n : Nat) : Except Panic Nat := do
  let bytes ← indexBytes data start (List.range' offset n)
  return fromLeBytes bytes

/-- `parse_header`. -/
def parseHeaderIndexed (data : List UInt8) : Except Panic (Except ParseError ElfHeader) := do
  if data.length < 64 then return .error .fileTooSmall
  if (← slice data 0 4) ≠ [0x7F, 0x45, 0x4C, 0x46] then return .error .badMagic
  if (← leIndexed data 0 4 1) ≠ 2 then return .error .unsupportedClass
  if (← leIndexed data 0 5 1) ≠ 1 then return .error .unsupportedEndian
  let eType ← leIndexed data 0 16 2
  if eType ≠ 2 ∧ eType ≠ 3 then return .error .unsupportedType
  let eMachine ← leIndexed data 0 18 2
  if eMachine ≠ 62 then return .error .unsupportedMachine
  let ePhoff ← leIndexed data 0 32 8
  let ePhentsize ← leIndexed data 0 54 2
  let ePhnum ← leIndexed data 0 56 2
  if ePhentsize < 56 then return .error .invalidProgramHeaderSize
  let entry ← leIndexed data 0 24 8
  return .ok ⟨entry, ePhoff, ePhentsize, ePhnum⟩

/-- `parse_program_header`. -/
def parseProgramHeaderIndexed (data : List UInt8) (header : ElfHeader) (index : Nat) :
    Except Panic (Except ParseError (Option ProgramHeader)) := do
  match programHeaderRange header index with
  | none => return .error .programHeaderOutOfBounds
  | some (start, stop) =>
    if start ≥ data.length ∨ stop > data.length then return .error .programHeaderOutOfBounds
    let pType ← leIndexed data start 0 4
    if pType ≠ 1 then return .ok none
    let flags ← leIndexed data start 4 4
    let fileOffset ← leIndexed data start 8 8
    let virtualAddress ← leIndexed data start 16 8
    let physicalAddress ← leIndexed data start 24 8
    let fileSize ← leIndexed data start 32 8
    let memorySize ← leIndexed data start 40 8
    let align ← leIndexed data start 48 8
    if fileSize > memorySize then return .error .programHeaderOutOfBounds
    return .ok (some ⟨fileOffset, virtualAddress, physicalAddress, fileSize, memorySize, flags, align⟩)

namespace ElfLemmas

variable {data : List UInt8} {header : ElfHeader} {index : Nat}

theorem indexBytes_eq (hlen : data.length ≤ isizeMax) {start : Nat} : ∀ {offset n : Nat},
    start + offset + n ≤ data.length →
      indexBytes data start (List.range' offset n) = .ok ((data.drop (start + offset)).take n)
  | _, 0, _ => rfl
  | offset, n + 1, h => by
    have hadd : add64 start offset = .ok (start + offset) := by
      unfold isizeMax at hlen
      exact add64_eq_ok.mpr ⟨by omega, rfl⟩
    have hlt : start + offset < data.length := by omega
    have hrest : indexBytes data start (List.range' (offset + 1) n) =
        .ok ((data.drop (start + (offset + 1))).take n) := indexBytes_eq hlen (by omega)
    rw [List.range'_succ, List.drop_eq_getElem_cons hlt, List.take_succ_cons]
    unfold indexBytes
    rw [hadd, hrest]
    show (byteAt data (start + offset) >>= _) = _
    rw [byteAt_eq_ok hlt]
    rfl

theorem leIndexed_eq (hlen : data.length ≤ isizeMax) {start offset n : Nat}
    (h : start + offset + n ≤ data.length) :
    leIndexed data start offset n = .ok (leAt data (start + offset) n) := by
  unfold leIndexed
  rw [indexBytes_eq hlen h]
  rfl

/-- No index of `parse_header` is out of range. -/
theorem parseHeaderIndexed_eq (hlen : data.length ≤ isizeMax) :
    parseHeaderIndexed data = .ok (parseHeader data) := by
  unfold parseHeaderIndexed parseHeader
  by_cases hshort : data.length < 64
  · rw [if_pos hshort, if_pos hshort]
    rfl
  · rw [if_neg hshort, if_neg hshort]
    have hread : ∀ {offset n : Nat}, offset + n ≤ 64 →
        leIndexed data 0 offset n = .ok (leAt data offset n) := by
      intro offset n h
      rw [leIndexed_eq hlen (by omega), Nat.zero_add]
    have hmagic : slice data 0 4 = .ok (data.take 4) := by
      have hslice : slice data 0 (0 + 4) = _ := slice_eq_ok (by omega)
      exact hslice
    simp only [hmagic, hread (show 4 + 1 ≤ 64 by decide), hread (show 5 + 1 ≤ 64 by decide),
      hread (show 16 + 2 ≤ 64 by decide), hread (show 18 + 2 ≤ 64 by decide),
      hread (show 32 + 8 ≤ 64 by decide), hread (show 54 + 2 ≤ 64 by decide),
      hread (show 56 + 2 ≤ 64 by decide), hread (show 24 + 8 ≤ 64 by decide), bind, Except.bind, pure,
      Except.pure]
    split
    · rfl
    · split
      · rfl
      · split
        · rfl
        · split
          · rfl
          · split
            · rfl
            · split <;> rfl

theorem programHeaderRange_eq_some {start stop : Nat}
    (h : programHeaderRange header index = some (start, stop)) :
    start = header.programHeaderOffset + index * header.programHeaderEntrySize ∧
      stop = start + header.programHeaderEntrySize := by
  unfold programHeaderRange at h
  obtain ⟨m, hm, h⟩ := Option.bind_eq_some_iff.mp h
  obtain ⟨a, ha, h⟩ := Option.bind_eq_some_iff.mp h
  obtain ⟨b, hb, h⟩ := Option.bind_eq_some_iff.mp h
  cases h
  unfold checkedMul at hm
  obtain ⟨-, hm⟩ := Option.ite_none_right_eq_some.mp hm
  cases hm
  obtain ⟨-, rfl⟩ := checkedAdd_eq_some.mp ha
  obtain ⟨-, rfl⟩ := checkedAdd_eq_some.mp hb
  exact ⟨rfl, rfl⟩

/-- No index of `parse_program_header` is out of range: the entries have room for all fields. -/
theorem parseProgramHeaderIndexed_eq (hlen : data.length ≤ isizeMax)
    (hsize : 56 ≤ header.programHeaderEntrySize) :
    parseProgramHeaderIndexed data header index = .ok (parseProgramHeader data header index) := by
  unfold parseProgramHeaderIndexed parseProgramHeader
  rcases hrange : programHeaderRange header index with _ | ⟨start, stop⟩
  · rfl
  · obtain ⟨-, hstop⟩ := programHeaderRange_eq_some hrange
    dsimp only
    by_cases hout : start ≥ data.length ∨ stop > data.length
    · rw [if_pos hout, if_pos hout]
      rfl
    · rw [if_neg hout, if_neg hout]
      have hread : ∀ {offset n : Nat}, offset + n ≤ 56 →
          leIndexed data start offset n = .ok (leAt data (start + offset) n) :=
        fun h => leIndexed_eq hlen (by omega)
      simp only [hread (show 0 + 4 ≤ 56 by decide), hread (show 4 + 4 ≤ 56 by decide),
        hread (show 8 + 8 ≤ 56 by decide), hread (show 16 + 8 ≤ 56 by decide),
        hread (show 24 + 8 ≤ 56 by decide), hread (show 32 + 8 ≤ 56 by decide),
        hread (show 40 + 8 ≤ 56 by decide), hread (show 48 + 8 ≤ 56 by decide), bind, Except.bind, pure,
        Except.pure, Nat.add_zero]
      split
      · rfl
      · split <;> rfl

/-- What `parse_header` asks of an image. -/
structure HeaderAccepted (data : List UInt8) : Prop where
  long : 64 ≤ data.length
  magic : data.take 4 = [0x7F, 0x45, 0x4C, 0x46]
  class64 : leAt data 4 1 = 2
  littleEndian : leAt data 5 1 = 1
  eType : leAt data 16 2 = 2 ∨ leAt data 16 2 = 3
  eMachine : leAt data 18 2 = 62
  ePhentsize : 56 ≤ leAt data 54 2

/-- The fields of the header of an image. -/
def headerAt (data : List UInt8) : ElfHeader :=
  ⟨leAt data 24 8, leAt data 32 8, leAt data 54 2, leAt data 56 2⟩

theorem parseHeader_eq_ok_iff :
    parseHeader data = .ok header ↔ HeaderAccepted data ∧ header = headerAt data := by
  unfold parseHeader
  dsimp only
  constructor
  · intro h
    obtain ⟨hlong, h⟩ := ite_error_eq_ok.mp h
    obtain ⟨hmagic, h⟩ := ite_error_eq_ok.mp h
    obtain ⟨hclass, h⟩ := ite_error_eq_ok.mp h
    obtain ⟨hendian, h⟩ := ite_error_eq_ok.mp h
    obtain ⟨htype, h⟩ := ite_error_eq_ok.mp h
    obtain ⟨hmachine, h⟩ := ite_error_eq_ok.mp h
    obtain ⟨hsize, h⟩ := ite_error_eq_ok.mp h
    refine ⟨⟨by omega, Decidable.of_not_not hmagic, Decidable.of_not_not hclass,
      Decidable.of_not_not hendian, by omega, Decidable.of_not_not hmachine, by omega⟩, ?_⟩
    exact (Except.ok.inj h).symm
  · rintro ⟨h, rfl⟩
    have htype := h.eType
    rw [if_neg (Nat.not_lt.mpr h.long), if_neg (not_not_intro h.magic),
      if_neg (not_not_intro h.class64), if_neg (not_not_intro h.littleEndian), if_neg (by omega),
      if_neg (not_not_intro h.eMachine), if_neg (Nat.not_lt.mpr h.ePhentsize)]
    rfl

/-- The program header with this index lies in the image, at `start`. -/
def EntryAt (data : List UInt8) (header : ElfHeader) (index start : Nat) : Prop :=
  programHeaderRange header index = some (start, start + header.programHeaderEntrySize) ∧
    start + header.programHeaderEntrySize ≤ data.length

/-- The fields of the program header at `start`. -/
def programHeaderAt (data : List UInt8) (start : Nat) : ProgramHeader :=
  ⟨leAt data (start + 8) 8, leAt data (start + 16) 8, leAt data (start + 24) 8,
    leAt data (start + 32) 8, leAt data (start + 40) 8, leAt data (start + 4) 4,
    leAt data (start + 48) 8⟩

theorem parseProgramHeader_eq_ok_iff (hsize : 56 ≤ header.programHeaderEntrySize)
    {r : Option ProgramHeader} : parseProgramHeader data header index = .ok r ↔
      ∃ start, EntryAt data header index start ∧
        (leAt data start 4 ≠ 1 ∧ r = none ∨ leAt data start 4 = 1 ∧
          leAt data (start + 32) 8 ≤ leAt data (start + 40) 8 ∧ r = some (programHeaderAt data start)) := by
  unfold parseProgramHeader EntryAt
  constructor
  · intro h
    rcases hrange : programHeaderRange header index with _ | ⟨start, stop⟩ <;> rw [hrange] at h
    · cases h
    · obtain ⟨-, rfl⟩ := programHeaderRange_eq_some hrange
      dsimp only at h
      obtain ⟨hin, h⟩ := ite_error_eq_ok.mp h
      refine ⟨start, ⟨rfl, by omega⟩, ?_⟩
      by_cases htype : leAt data start 4 = 1
      · rw [if_neg (not_not_intro htype)] at h
        obtain ⟨hle, h⟩ := ite_error_eq_ok.mp h
        exact .inr ⟨htype, Nat.le_of_not_lt hle, (Except.ok.inj h).symm⟩
      · rw [if_pos htype] at h
        exact .inl ⟨htype, (Except.ok.inj h).symm⟩
  · rintro ⟨start, ⟨hrange, hin⟩, h⟩
    rw [hrange]
    dsimp only
    rw [if_neg (by omega)]
    rcases h with ⟨htype, rfl⟩ | ⟨htype, hle, rfl⟩
    · rw [if_pos htype]
    · rw [if_neg (not_not_intro htype), if_neg (Nat.not_lt.mpr hle)]
      rfl

end ElfLemmas

open ElfLemmas

/-! ## Tables -/

/-- A program header, with the types of ELF64. -/
structure ElfRecord where
  pType : UInt32
  flags : UInt32
  fileOffset : UInt64
  virtualAddress : UInt64
  physicalAddress : UInt64
  fileSize : UInt64
  memorySize : UInt64
  align : UInt64
deriving DecidableEq, Repr

/-- Its 56 bytes. -/
def ElfRecord.encode (r : ElfRecord) : List UInt8 :=
  toLeBytes 4 r.pType.toNat ++ (toLeBytes 4 r.flags.toNat ++ (toLeBytes 8 r.fileOffset.toNat ++
    (toLeBytes 8 r.virtualAddress.toNat ++ (toLeBytes 8 r.physicalAddress.toNat ++
      (toLeBytes 8 r.fileSize.toNat ++ (toLeBytes 8 r.memorySize.toNat ++
        toLeBytes 8 r.align.toNat))))))

/-- What the parser makes of it: only a `PT_LOAD` record is returned, and one with more bytes in the file
than in memory is an error. -/
def ElfRecord.parsed (r : ElfRecord) : Except ParseError (Option ProgramHeader) :=
  if r.pType ≠ 1 then .ok none
  else if r.memorySize < r.fileSize then .error .programHeaderOutOfBounds
  else .ok (some ⟨r.fileOffset.toNat, r.virtualAddress.toNat, r.physicalAddress.toNat,
    r.fileSize.toNat, r.memorySize.toNat, r.flags.toNat, r.align.toNat⟩)

/-- The bytes of the image from `offset` on begin with `bytes`. -/
def HasBytes (image : List UInt8) (offset : Nat) (bytes : List UInt8) : Prop :=
  (image.drop offset).take bytes.length = bytes

instance (image : List UInt8) (offset : Nat) (bytes : List UInt8) :
    Decidable (HasBytes image offset bytes) := inferInstanceAs (Decidable (_ = _))

/-- The image has an ELF64 header for x86-64 and a table of records at `phoff`, one each `entrySize`
bytes. The other bytes are not restricted. -/
structure EncodedElf (image : List UInt8) (eType : UInt16) (entry phoff : UInt64) (entrySize : UInt16)
    (records : List ElfRecord) : Prop where
  ident : HasBytes image 0 [0x7F, 0x45, 0x4C, 0x46, 2, 1]
  eType : HasBytes image 16 (toLeBytes 2 eType.toNat)
  eMachine : HasBytes image 18 (toLeBytes 2 62)
  eEntry : HasBytes image 24 (toLeBytes 8 entry.toNat)
  ePhoff : HasBytes image 32 (toLeBytes 8 phoff.toNat)
  ePhentsize : HasBytes image 54 (toLeBytes 2 entrySize.toNat)
  ePhnum : HasBytes image 56 (toLeBytes 2 records.length)
  table : ∀ i r, records[i]? = some r → HasBytes image (phoff.toNat + i * entrySize.toNat) r.encode

namespace ElfLemmas

theorem HasBytes.append {image a b : List UInt8} {offset : Nat} (h : HasBytes image offset (a ++ b)) :
    HasBytes image offset a ∧ HasBytes image (offset + a.length) b := by
  unfold HasBytes at *
  rw [List.length_append, List.take_add, List.drop_drop] at h
  have hle : ((image.drop offset).take a.length).length ≤ a.length := List.length_take_le _ _
  have hlen := congrArg List.length h
  rw [List.length_append, List.length_append] at hlen
  have hle' : ((image.drop (offset + a.length)).take b.length).length ≤ b.length :=
    List.length_take_le _ _
  exact List.append_inj h (by omega)

theorem leAt_of_hasBytes {image : List UInt8} {offset n x : Nat} (hx : x < 256 ^ n)
    (h : HasBytes image offset (toLeBytes n x)) : leAt image offset n = x := by
  unfold HasBytes at h
  rw [length_toLeBytes] at h
  unfold leAt
  rw [h, fromLeBytes_toLeBytes hx]

/-- The header of an image is read as it was written. -/
theorem parseHeader_encoded {image : List UInt8} {eType entrySize : UInt16} {entry phoff : UInt64}
    {records : List ElfRecord} (h : EncodedElf image eType entry phoff entrySize records)
    (hlen : 64 ≤ image.length) (htype : eType = 2 ∨ eType = 3) (hsize : 56 ≤ entrySize.toNat)
    (hcount : records.length < 2 ^ 16) :
    parseHeader image = .ok ⟨entry.toNat, phoff.toNat, entrySize.toNat, records.length⟩ := by
  have hident : image.take 4 = [0x7F, 0x45, 0x4C, 0x46] ∧ leAt image 4 1 = 2 ∧ leAt image 5 1 = 1 := by
    obtain ⟨hmagic, hrest⟩ := HasBytes.append (a := [0x7F, 0x45, 0x4C, 0x46]) (b := [2, 1]) h.ident
    obtain ⟨hclass, hdata⟩ := HasBytes.append (a := [2]) (b := [1]) hrest
    exact ⟨hmagic, leAt_of_hasBytes (n := 1) (x := 2) (by decide) hclass,
      leAt_of_hasBytes (n := 1) (x := 1) (by decide) hdata⟩
  have hmachine : leAt image 18 2 = 62 := leAt_of_hasBytes (by decide) h.eMachine
  have htype' : leAt image 16 2 = eType.toNat := leAt_of_hasBytes eType.toNat_lt h.eType
  have hentry : leAt image 24 8 = entry.toNat := leAt_of_hasBytes entry.toNat_lt h.eEntry
  have hphoff : leAt image 32 8 = phoff.toNat := leAt_of_hasBytes phoff.toNat_lt h.ePhoff
  have hentsize : leAt image 54 2 = entrySize.toNat := leAt_of_hasBytes entrySize.toNat_lt h.ePhentsize
  have hphnum : leAt image 56 2 = records.length := leAt_of_hasBytes hcount h.ePhnum
  refine parseHeader_eq_ok_iff.mpr ⟨⟨hlen, hident.1, hident.2.1, hident.2.2, ?_, hmachine, ?_⟩, ?_⟩
  · rw [htype']
    rcases htype with rfl | rfl <;> decide
  · rw [hentsize]
    exact hsize
  · unfold headerAt
    rw [hentry, hphoff, hentsize, hphnum]

/-- A record of the table is read as it was written. -/
theorem parseProgramHeader_encoded {image : List UInt8} (hlen : image.length ≤ isizeMax)
    {header : ElfHeader} {i : Nat} {r : ElfRecord} (hsize : 56 ≤ header.programHeaderEntrySize)
    (hend : header.programHeaderOffset + (i + 1) * header.programHeaderEntrySize ≤ image.length)
    (h : HasBytes image (header.programHeaderOffset + i * header.programHeaderEntrySize) r.encode) :
    parseProgramHeader image header i = r.parsed := by
  rw [Nat.add_mul, Nat.one_mul, ← Nat.add_assoc] at hend
  unfold isizeMax at hlen
  have hrange : programHeaderRange header i = some
      (header.programHeaderOffset + i * header.programHeaderEntrySize,
        header.programHeaderOffset + i * header.programHeaderEntrySize +
          header.programHeaderEntrySize) := by
    have hmul : checkedMul i header.programHeaderEntrySize =
        some (i * header.programHeaderEntrySize) := if_pos (by omega)
    have hadd : checkedAdd header.programHeaderOffset (i * header.programHeaderEntrySize) = some _ :=
      checkedAdd_eq_some.mpr ⟨by omega, rfl⟩
    have hadd' : checkedAdd (header.programHeaderOffset + i * header.programHeaderEntrySize)
        header.programHeaderEntrySize = some _ := checkedAdd_eq_some.mpr ⟨by omega, rfl⟩
    unfold programHeaderRange
    simp only [hmul, hadd, hadd', Option.bind_eq_bind, Option.bind_some, Option.pure_def]
  unfold parseProgramHeader
  rw [hrange]
  dsimp only
  generalize header.programHeaderOffset + i * header.programHeaderEntrySize = start at *
  rw [if_neg (by omega)]
  obtain ⟨htype, h⟩ := HasBytes.append h
  obtain ⟨hflags, h⟩ := HasBytes.append h
  obtain ⟨hoffset, h⟩ := HasBytes.append h
  obtain ⟨hvirt, h⟩ := HasBytes.append h
  obtain ⟨hphys, h⟩ := HasBytes.append h
  obtain ⟨hfile, h⟩ := HasBytes.append h
  obtain ⟨hmem, halign⟩ := HasBytes.append h
  simp only [length_toLeBytes, Nat.add_assoc, Nat.reduceAdd] at hflags hoffset hvirt hphys hfile hmem halign
  rw [leAt_of_hasBytes r.pType.toNat_lt htype, leAt_of_hasBytes r.flags.toNat_lt hflags,
    leAt_of_hasBytes r.fileOffset.toNat_lt hoffset, leAt_of_hasBytes r.virtualAddress.toNat_lt hvirt,
    leAt_of_hasBytes r.physicalAddress.toNat_lt hphys, leAt_of_hasBytes r.fileSize.toNat_lt hfile,
    leAt_of_hasBytes r.memorySize.toNat_lt hmem, leAt_of_hasBytes r.align.toNat_lt halign]
  unfold ElfRecord.parsed
  have hload : r.pType.toNat ≠ 1 ↔ r.pType ≠ 1 :=
    not_congr ⟨fun heq => UInt32.toNat_inj.mp heq, fun heq => by rw [heq]; rfl⟩
  by_cases hp : r.pType ≠ 1
  · rw [if_pos (hload.mpr hp), if_pos hp]
  · rw [if_neg (fun hne => hp (hload.mp hne)), if_neg hp]
    rfl

end ElfLemmas

/-- The parser reads exactly the header and the records that are there, and on no byte string, and for no
index, does it access a byte that is not: a header that was parsed may be used with any image. -/
theorem elf_table_exact :
    (∀ (image : List UInt8) (eType entrySize : UInt16) (entry phoff : UInt64)
      (records : List ElfRecord), image.length ≤ isizeMax → eType = 2 ∨ eType = 3 →
      56 ≤ entrySize.toNat → records.length < 2 ^ 16 → 64 ≤ phoff.toNat →
      phoff.toNat + records.length * entrySize.toNat ≤ image.length →
      EncodedElf image eType entry phoff entrySize records →
        parseHeaderIndexed image =
          .ok (.ok ⟨entry.toNat, phoff.toNat, entrySize.toNat, records.length⟩) ∧
        ∀ i r, records[i]? = some r → parseProgramHeaderIndexed image
          ⟨entry.toNat, phoff.toNat, entrySize.toNat, records.length⟩ i = .ok r.parsed) ∧
    ∀ image : List UInt8, image.length ≤ isizeMax →
      (∃ r, parseHeaderIndexed image = .ok r) ∧
      ∀ header, parseHeaderIndexed image = .ok (.ok header) → ∀ data : List UInt8,
        data.length ≤ isizeMax → ∀ index, index < 2 ^ 16 →
        ∃ r, parseProgramHeaderIndexed data header index = .ok r := by
  constructor
  · intro image eType entrySize entry phoff records hlen htype hsize hcount hphoff hend h
    constructor
    · rw [parseHeaderIndexed_eq hlen, parseHeader_encoded h _ htype hsize hcount]
      exact Nat.le_trans hphoff (Nat.le_trans (Nat.le_add_right _ _) hend)
    · intro i r hr
      have hi : i < records.length := (List.getElem?_eq_some_iff.mp hr).1
      have hmul : (i + 1) * entrySize.toNat ≤ records.length * entrySize.toNat :=
        Nat.mul_le_mul_right _ hi
      rw [parseProgramHeaderIndexed_eq hlen hsize,
        parseProgramHeader_encoded hlen hsize _ (h.table i r hr)]
      exact Nat.le_trans (Nat.add_le_add_left hmul _) hend
  · intro image hlen
    rw [parseHeaderIndexed_eq hlen]
    refine ⟨⟨_, rfl⟩, fun header hheader data hdata index _ => ?_⟩
    obtain ⟨haccepted, rfl⟩ := parseHeader_eq_ok_iff.mp (Except.ok.inj hheader)
    exact ⟨_, parseProgramHeaderIndexed_eq hdata haccepted.ePhentsize⟩

/-- An image with an entry point, program headers at a stride, and what follows them. Bytes that nothing reads are 9. -/
def elfImage (entry stride : Nat) (records : List ElfRecord) (contents : List UInt8) : List UInt8 :=
  [0x7F, 0x45, 0x4C, 0x46, 2, 1, 1] ++ List.replicate 9 9 ++ toLeBytes 2 2 ++ toLeBytes 2 62 ++
    List.replicate 4 9 ++ toLeBytes 8 entry ++ toLeBytes 8 64 ++ List.replicate 14 9 ++
    toLeBytes 2 stride ++ toLeBytes 2 records.length ++ List.replicate 6 9 ++
    records.flatMap (fun r => r.encode ++ List.replicate (stride - 56) 9) ++ contents

/-- An image whose program headers follow each other directly. -/
def programElf (entry : Nat) (records : List ElfRecord) (contents : List UInt8) : List UInt8 :=
  elfImage entry 56 records contents

/-- A record with three bytes in the file and five in memory, and one in the next page. -/
def sampleRecords : List ElfRecord :=
  [⟨1, 5, 192, 0x400000, 0, 3, 5, 4096⟩, ⟨1, 6, 195, 0x401000, 0, 2, 4, 4096⟩]

/-- An image of a header, these records with eight bytes behind each of them, and their contents. -/
def sampleElf : List UInt8 := elfImage 0x400000 64 sampleRecords [11, 12, 13, 14, 15]

theorem sampleElf_encoded : EncodedElf sampleElf 2 0x400000 64 64 sampleRecords where
  ident := by decide +kernel
  eType := by decide +kernel
  eMachine := by decide +kernel
  eEntry := by decide +kernel
  ePhoff := by decide +kernel
  ePhentsize := by decide +kernel
  ePhnum := by decide +kernel
  table i r hr := by
    have htable : ∀ i : Fin 2, HasBytes sampleElf (64 + i.val * 64) (sampleRecords.get i).encode := by decide +kernel
    obtain ⟨hi, rfl⟩ := List.getElem?_eq_some_iff.mp hr
    exact htable ⟨i, hi⟩

theorem elf_table_exact_sample :
    parseHeaderIndexed sampleElf = .ok (.ok ⟨0x400000, 64, 64, 2⟩) ∧
    ∀ i r, sampleRecords[i]? = some r →
      parseProgramHeaderIndexed sampleElf ⟨0x400000, 64, 64, 2⟩ i = .ok r.parsed :=
  elf_table_exact.1 sampleElf 2 64 0x400000 64 sampleRecords (by decide +kernel) (by decide)
    (by decide) (by decide) (by decide) (by decide +kernel) sampleElf_encoded

end Turnix
