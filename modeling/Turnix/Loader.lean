import Turnix.Elf
import Turnix.MapRegion
import Turnix.Lib.RamBytes

/-!
# Loading a program

`Process::new_from_elf` in `process.rs`. A segment is copied in chunks that end with a page: the address is
translated by the mapper of the new address space, and the bytes go to that physical address through the
map of all memory. The two loops, for the bytes of the file and for the zeros after them, are one
definition (`fillRange`).
-/

namespace Turnix

open Lib Lib.Paging PanicM

/-! ## Memory -/

/-- `a + b` on `usize`. -/
def addUsize (a b : Nat) : PanicM PhysMem Nat := do
  PanicM.ensure (decide (a + b < 2 ^ 64))
  return a + b

/-- `copy_nonoverlapping` and `write_bytes` to a physical address. -/
def writeBytes (phys : Nat) (bytes : List UInt8) : PanicM PhysMem Unit :=
  .modify fun s => { s with
    ram := s.ram.setBytes (BitVec.ofNat 40 (phys / 4096)) (phys % 4096) bytes
    writes := s.writes ++ [⟨phys, bytes.length⟩] }

/-- `n` bytes from `&data[fileOffset + offset]` on. Only the index of the first one is checked. -/
def readSlice (data : List UInt8) (fileOffset offset n : Nat) : PanicM PhysMem (List UInt8) := do
  let start ← addUsize fileOffset offset
  PanicM.ensure (decide (start < data.length))
  PanicM.modify fun s => { s with reads := s.reads ++ [⟨start, n⟩] }
  return (data.drop start).take n

/-! ## Segments -/

/-- Copy the bytes of `source` to `virtStart + offset .. virtStart + stop`, and return the offset at the
end. Every turn copies a byte at least, so `stop` turns are enough. -/
def fillRange (c : Mapper) (pml4 : Frame) (virtStart stop : Nat)
    (source : Nat → Nat → PanicM PhysMem (List UInt8)) : Nat → Nat → PanicM PhysMem Nat
  | 0, offset => pure offset
  | fuel + 1, offset =>
    if offset < stop then do
      let chunkVirt ← addAddr virtStart offset
      let s ← PanicM.get
      let chunkPhys ← PanicM.expect (c.translateAddr s.ram pml4 chunkVirt)
      let copySize := min (stop - offset) (4096 - chunkVirt % 4096)
      let bytes ← source offset copySize
      writeBytes chunkPhys bytes
      let offset ← addUsize offset copySize
      fillRange c pml4 virtStart stop source fuel offset
    else pure offset

/-- The loop that copies the bytes of the file. -/
def copyFile (c : Mapper) (pml4 : Frame) (data : List UInt8) (ph : ProgramHeader) : PanicM PhysMem Nat :=
  fillRange c pml4 ph.virtualAddress ph.fileSize (readSlice data ph.fileOffset) ph.fileSize 0

/-- The loop that clears the rest. -/
def zeroBss (c : Mapper) (pml4 : Frame) (ph : ProgramHeader) (offset : Nat) : PanicM PhysMem Nat :=
  fillRange c pml4 ph.virtualAddress ph.memorySize (fun _ n => pure (List.replicate n 0)) ph.memorySize
    offset

/-- The flags of the pages of a segment. -/
def segmentFlags (flags : Nat) : Flags :=
  let f := if flags &&& pfW ≠ 0 then Flags.empty.union .writable else .empty
  if flags &&& pfX = 0 then f.union .noExecute else f

/-- The body of the loop over the program headers, for one that is loaded. -/
def loadSegment (c : Mapper) (pml4 : Frame) (data : List UInt8) (ph : ProgramHeader) :
    PanicM PhysMem Unit := do
  let virtStart ← virtAddr ph.virtualAddress
  mapUserRegion c pml4 virtStart ph.memorySize (segmentFlags ph.flags)
  let offset ← copyFile c pml4 data ph
  let _ ← zeroBss c pml4 ph offset

/-- The program header of an index, if it is to be loaded; the tests at the start of the loop. -/
def segmentAt (data : List UInt8) (header : ElfHeader) (index : Nat) :
    Except ParseError (Option ProgramHeader) :=
  match parseProgramHeader data header index with
  | .error e => .error e
  | .ok none => .ok none
  | .ok (some ph) =>
    if ph.memorySize = 0 then .ok none
    else
      match checkedAdd ph.fileOffset ph.fileSize with
      | none => .error .programHeaderOutOfBounds
      | some fileEnd =>
        if fileEnd > data.length then .error .programHeaderOutOfBounds else .ok (some ph)

/-- The loop over `count` program headers from `index` on. -/
def loadSegments (c : Mapper) (pml4 : Frame) (data : List UInt8) (header : ElfHeader) :
    Nat → Nat → PanicM PhysMem (Except ParseError Unit)
  | 0, _ => pure (.ok ())
  | count + 1, index =>
    match segmentAt data header index with
    | .error e => pure (.error e)
    | .ok none => loadSegments c pml4 data header count (index + 1)
    | .ok (some ph) => do
      loadSegment c pml4 data ph
      loadSegments c pml4 data header count (index + 1)

/-- `Process::new_from_elf`. -/
def Process.newFromElf (c : Mapper) (cr3 : Frame) (elfData : List UInt8) :
    PanicM PhysMem (Except ParseError Process) :=
  match parseHeader elfData with
  | .error e => pure (.error e)
  | .ok header => do
    let pml4Frame ← createProcessPml4 cr3
    let stackStart ← virtAddr 0x700000000000
    let stackTop ← addAddr stackStart 32768
    let entryPoint ← virtAddr header.entry
    mapUserRegion c pml4Frame stackStart 32768 .writable
    match ← loadSegments c pml4Frame elfData header header.programHeaderCount 0 with
    | .error e => pure (.error e)
    | .ok () => pure (.ok ⟨pml4Frame.toNat, entryPoint, stackTop⟩)

/-! ## The segments of an image -/

/-- The segments that the loop loads, up to the first error. -/
def segmentsFrom (data : List UInt8) (header : ElfHeader) : Nat → Nat → List ProgramHeader
  | 0, _ => []
  | count + 1, index =>
    match segmentAt data header index with
    | .error _ => []
    | .ok none => segmentsFrom data header count (index + 1)
    | .ok (some ph) => ph :: segmentsFrom data header count (index + 1)

/-- The first error of the loop. -/
def tableResult (data : List UInt8) (header : ElfHeader) : Nat → Nat → Except ParseError Unit
  | 0, _ => .ok ()
  | count + 1, index =>
    match segmentAt data header index with
    | .error e => .error e
    | .ok _ => tableResult data header count (index + 1)

/-- Load segments one after the other. -/
def loadAll (c : Mapper) (pml4 : Frame) (data : List UInt8) : List ProgramHeader → PanicM PhysMem Unit
  | [] => pure ()
  | ph :: phs => do
    loadSegment c pml4 data ph
    loadAll c pml4 data phs

namespace LoaderLemmas

variable {c : Mapper} {pml4 : Frame} {data : List UInt8} {header : ElfHeader} {s : PhysMem}
  {E : PhysMem → Prop}

/-- The loop loads the segments, and its result is known before. -/
theorem ends_loadSegments : ∀ {count index : Nat} {s : PhysMem}
    {Q : Except ParseError Unit → PhysMem → Prop},
    Ends (loadSegments c pml4 data header count index) s Q E ↔
      Ends (loadAll c pml4 data (segmentsFrom data header count index)) s
        (fun _ => Q (tableResult data header count index)) E
  | 0, _, _, _ => Iff.rfl
  | count + 1, index, s, Q => by
    unfold loadSegments segmentsFrom tableResult
    rcases segmentAt data header index with e | (_ | ph)
    · exact Iff.rfl
    · exact ends_loadSegments
    · dsimp only
      unfold loadAll
      rw [ends_bind, ends_bind]
      unfold Ends
      rcases loadSegment c pml4 data ph s with ⟨_ | u, s'⟩
      · exact Iff.rfl
      · exact ends_loadSegments

theorem ends_addUsize {a b : Nat} {Q : Nat → PhysMem → Prop} : Ends (addUsize a b) s Q E ↔
    (a + b < 2 ^ 64 → Q (a + b) s) ∧ (¬ a + b < 2 ^ 64 → E s) := by
  unfold addUsize
  rw [ends_bind, ends_ensure, decide_eq_true_iff, decide_eq_false_iff_not]
  exact Iff.rfl

theorem ends_writeBytes {phys : Nat} {bytes : List UInt8} {Q : Unit → PhysMem → Prop} :
    Ends (writeBytes phys bytes) s Q E ↔ Q () { s with
      ram := s.ram.setBytes (BitVec.ofNat 40 (phys / 4096)) (phys % 4096) bytes
      writes := s.writes ++ [⟨phys, bytes.length⟩] } := Iff.rfl

theorem ends_readSlice {fileOffset offset n : Nat} {Q : List UInt8 → PhysMem → Prop} :
    Ends (readSlice data fileOffset offset n) s Q E ↔
      (fileOffset + offset < 2 ^ 64 ∧ fileOffset + offset < data.length →
        Q ((data.drop (fileOffset + offset)).take n)
          { s with reads := s.reads ++ [⟨fileOffset + offset, n⟩] }) ∧
      (¬ (fileOffset + offset < 2 ^ 64 ∧ fileOffset + offset < data.length) → E s) := by
  unfold readSlice
  rw [ends_bind, ends_addUsize, ends_bind, ends_ensure, decide_eq_true_iff, decide_eq_false_iff_not]
  constructor
  · rintro ⟨h, herr⟩
    refine ⟨fun ⟨h64, hlen⟩ => (h h64).1 hlen, fun hout => ?_⟩
    by_cases h64 : fileOffset + offset < 2 ^ 64
    · exact (h h64).2 fun hlen => hout ⟨h64, hlen⟩
    · exact herr h64
  · rintro ⟨h, herr⟩
    refine ⟨fun h64 => ⟨fun hlen => h ⟨h64, hlen⟩, fun hlen => herr fun hin => hlen hin.2⟩, fun h64 => ?_⟩
    exact herr fun hin => h64 hin.1

/-- One round of a loop: it copies some bytes, none of them past the end of the range or of the page. -/
theorem ends_fillRange_round {virtStart stop fuel offset : Nat}
    {source : Nat → Nat → PanicM PhysMem (List UInt8)} {Q : Nat → PhysMem → Prop} (hlt : offset < stop)
    (hcanonical : canonical (virtStart + offset) = false → E s)
    (hunmapped : c.translateAddr s.ram pml4 (virtStart + offset) = none → E s)
    (hround : ∀ phys n, c.translateAddr s.ram pml4 (virtStart + offset) = some phys → 0 < n → offset + n ≤ stop →
      (virtStart + offset) % 4096 + n ≤ 4096 →
      Ends (source offset n) s (fun chunk s' =>
        Ends (addUsize offset n >>= fillRange c pml4 virtStart stop source fuel) { s' with
          ram := s'.ram.setBytes (BitVec.ofNat 40 (phys / 4096)) (phys % 4096) chunk
          writes := s'.writes ++ [⟨phys, chunk.length⟩] } Q E) E) :
    Ends (fillRange c pml4 virtStart stop source (fuel + 1) offset) s Q E := by
  unfold fillRange addAddr
  rw [if_pos hlt, ends_bind, ends_virtAddr]
  refine ⟨fun _ => ?_, hcanonical⟩
  rw [ends_bind, ends_get, ends_bind, ends_expect]
  refine ⟨fun phys hphys => ?_, hunmapped⟩
  rw [ends_bind]
  refine (hround phys _ hphys (by omega) (by omega) (by omega)).mono (fun chunk s' h => ?_) fun _ h => h
  rw [ends_bind, ends_writeBytes]
  exact h

theorem segmentAt_eq_some {index : Nat} {ph : ProgramHeader}
    (h : segmentAt data header index = .ok (some ph)) :
    parseProgramHeader data header index = .ok (some ph) ∧ ph.memorySize ≠ 0 ∧
      ph.fileOffset + ph.fileSize < 2 ^ 64 ∧ ph.fileOffset + ph.fileSize ≤ data.length := by
  unfold segmentAt at h
  rcases hp : parseProgramHeader data header index with e | (_ | q) <;> rw [hp] at h
  · cases h
  · cases h
  · dsimp only at h
    by_cases hm : q.memorySize = 0
    · rw [if_pos hm] at h
      cases h
    · rw [if_neg hm] at h
      rcases hadd : checkedAdd q.fileOffset q.fileSize with _ | fileEnd <;> rw [hadd] at h
      · cases h
      · obtain ⟨h64, rfl⟩ := checkedAdd_eq_some.mp hadd
        obtain ⟨hlen, h⟩ := ite_error_eq_ok.mp h
        cases h
        exact ⟨rfl, hm, h64, Nat.le_of_not_lt hlen⟩

theorem segmentsFrom_mem : ∀ {count index : Nat} {ph : ProgramHeader},
    ph ∈ segmentsFrom data header count index →
      ∃ i, index ≤ i ∧ i < index + count ∧ segmentAt data header i = .ok (some ph)
  | 0, _, _, h => nomatch h
  | count + 1, index, ph, h => by
    have hrest : ph ∈ segmentsFrom data header count (index + 1) →
        ∃ i, index ≤ i ∧ i < index + (count + 1) ∧ segmentAt data header i = .ok (some ph) := by
      intro h
      obtain ⟨i, hle, hlt, hi⟩ := segmentsFrom_mem h
      exact ⟨i, by omega, by omega, hi⟩
    unfold segmentsFrom at h
    rcases hseg : segmentAt data header index with e | (_ | q) <;> rw [hseg] at h
    · cases h
    · exact hrest h
    · rcases List.mem_cons.mp h with rfl | h
      · exact ⟨index, Nat.le_refl _, by omega, hseg⟩
      · exact hrest h

/-- If no test fails, a segment with a byte passes them. -/
theorem segmentAt_of_parse : ∀ {count index : Nat}, tableResult data header count index = .ok () →
    ∀ {i : Nat} {ph : ProgramHeader}, index ≤ i → i < index + count →
      parseProgramHeader data header i = .ok (some ph) → ph.memorySize ≠ 0 →
      segmentAt data header i = .ok (some ph)
  | 0, index, _, i, _, hle, hlt, _, _ => absurd hlt (by omega)
  | count + 1, index, hok, i, ph, hle, hlt, hparse, hmem => by
    unfold tableResult at hok
    rcases hseg : segmentAt data header index with e | o <;> rw [hseg] at hok
    · cases hok
    · by_cases heq : i = index
      · subst heq
        have hseg' := hseg
        unfold segmentAt at hseg'
        rw [hparse] at hseg'
        dsimp only at hseg'
        rw [if_neg hmem] at hseg'
        rcases hadd : checkedAdd ph.fileOffset ph.fileSize with _ | fileEnd <;> rw [hadd] at hseg'
        · cases hseg'
        · obtain ⟨-, hseg'⟩ := ite_error_eq_ok.mp hseg'
          rw [hseg, ← hseg']
      · exact segmentAt_of_parse hok (by omega) (by omega) hparse hmem

/-- If no test fails, every segment is loaded. -/
theorem mem_segmentsFrom : ∀ {count index : Nat}, tableResult data header count index = .ok () →
    ∀ {i : Nat} {ph : ProgramHeader}, index ≤ i → i < index + count →
      segmentAt data header i = .ok (some ph) → ph ∈ segmentsFrom data header count index
  | 0, index, _, i, _, hle, hlt, _ => absurd hlt (by omega)
  | count + 1, index, hok, i, ph, hle, hlt, hi => by
    unfold tableResult at hok
    unfold segmentsFrom
    rcases hseg : segmentAt data header index with e | o <;> rw [hseg] at hok
    · cases hok
    · by_cases heq : i = index
      · subst heq
        rw [hseg] at hi
        cases hi
        exact List.mem_cons_self
      · have hrest := mem_segmentsFrom hok (by omega) (by omega) hi
        cases o with
        | none => exact hrest
        | some q => exact List.mem_cons_of_mem _ hrest

end LoaderLemmas

end Turnix
