import Mathlib.Data.List.GetD
import Turnix.ElfTable
import Turnix.Loader

/-!
# The image of a loaded program

What is read in the lower half of the address space that `Process::new_from_elf` has made. Code that
loads bytes keeps the shape of the page tables, sets the bytes that it is to set and no others (`Fills`);
of two such pieces of code the later one wins. A chunk does not reach into other pages, as each frame is
mapped as one page only.
-/

namespace Turnix

open Lib Lib.Paging PanicM RegionLemmas LoaderLemmas

/-! ## Bytes of an image -/

/-- What is read at an address. -/
def readByte (ram : Ram) (pml4 : Frame) (va : Nat) : Option UInt8 :=
  (walk ram 3 pml4 (va / 4096)).map fun tr => ram.byte tr.frame (va % 4096)

/-- The addresses of a segment. -/
def ProgramHeader.Covers (ph : ProgramHeader) (va : Nat) : Prop :=
  ph.virtualAddress ≤ va ∧ va < ph.virtualAddress + ph.memorySize

instance (ph : ProgramHeader) (va : Nat) : Decidable (ph.Covers va) :=
  inferInstanceAs (Decidable (_ ∧ _))

/-- The byte of a segment at `i`: those of the file come first, then zeros. -/
def ProgramHeader.content (ph : ProgramHeader) (data : List UInt8) (i : Nat) : UInt8 :=
  if i < ph.fileSize then data.getD (ph.fileOffset + i) 0 else 0

/-- The bytes `content` in a range of addresses. -/
def rangeBytes (start stop : Nat) (content : Nat → UInt8) (va : Nat) : Option UInt8 :=
  if start ≤ va ∧ va < stop then some (content va) else none

/-- The bytes of a segment, by address. -/
def ProgramHeader.bytes (data : List UInt8) (ph : ProgramHeader) : Nat → Option UInt8 :=
  rangeBytes ph.virtualAddress (ph.virtualAddress + ph.memorySize) fun va =>
    ph.content data (va - ph.virtualAddress)

/-- The bytes of segments that are loaded one after the other. -/
def imageBytes (data : List UInt8) : List ProgramHeader → Nat → Option UInt8
  | [], _ => none
  | ph :: phs, va => (imageBytes data phs va).or (ph.bytes data va)

/-- The entries of the lower half of a PML4. -/
def lowerHalf (_ : Frame) (i : Fin 512) : Prop := i.val < 256

/-- What code does that loads `bytes`, and reads a slice of `len` bytes for that. -/
structure Fills (pool : List Frame) (pml4 : Frame) (len : Nat) (bytes : Nat → Option UInt8)
    (kind : Frame → Kind) (s : PhysMem) (kind' : Frame → Kind) (s' : PhysMem) : Prop
    extends Grows lowerHalf pool pml4 (lowerHalf pml4) kind s kind' s' where
  filled : ∀ va b, va < 2 ^ 47 → bytes va = some b → readByte s'.ram pml4 va = some b
  unfilled : ∀ va b, va < 2 ^ 47 → bytes va = none → readByte s.ram pml4 va = some b →
    readByte s'.ram pml4 va = some b
  sliced : ∃ rs, s'.reads = s.reads ++ rs ∧ ∀ r ∈ rs, r.start + r.size ≤ len

namespace ImageLemmas

variable {c : Mapper} {pool : List Frame} {pml4 : Frame} {len : Nat} {kind kind' kind'' : Frame → Kind}
  {s s' s'' : PhysMem} {bytes bytes' : Nat → Option UInt8} {data : List UInt8}

theorem rangeBytes_or {start mid stop : Nat} {content : Nat → UInt8} (h : start ≤ mid)
    (h' : mid ≤ stop) (va : Nat) :
    (rangeBytes mid stop content va).or (rangeBytes start mid content va) =
      rangeBytes start stop content va := by
  unfold rangeBytes
  by_cases hlow : start ≤ va ∧ va < mid
  · rw [if_neg (by omega), if_pos hlow, if_pos (by omega)]
    rfl
  · by_cases hhigh : mid ≤ va ∧ va < stop
    · rw [if_pos hhigh, if_neg hlow, if_pos (by omega)]
      rfl
    · rw [if_neg hhigh, if_neg hlow, if_neg (by omega)]
      rfl

theorem rangeBytes_congr {start stop : Nat} {content content' : Nat → UInt8}
    (h : ∀ va, start ≤ va → va < stop → content va = content' va) :
    rangeBytes start stop content = rangeBytes start stop content' := by
  funext va
  unfold rangeBytes
  by_cases hin : start ≤ va ∧ va < stop
  · rw [if_pos hin, if_pos hin, h va hin.1 hin.2]
  · rw [if_neg hin, if_neg hin]

/-- A chunk, as bytes of the content that it is copied from. -/
theorem rangeBytes_chunk {start offset : Nat} {chunk : List UInt8} {content : Nat → UInt8}
    (h : ∀ k, k < chunk.length → chunk.getD k 0 = content (offset + k)) :
    rangeBytes (start + offset) (start + offset + chunk.length)
        (fun a => chunk.getD (a - (start + offset)) 0) =
      rangeBytes (start + offset) (start + (offset + chunk.length)) fun a => content (a - start) := by
  rw [← Nat.add_assoc]
  refine rangeBytes_congr fun a hge hlt => ?_
  rw [h _ (by omega)]
  congr 1
  omega

theorem holds_lower {page : Nat} (hpml4 : kind pml4 = .root) (h : page < 2 ^ 35) :
    Holds lowerHalf kind 3 page pml4 := holds_root hpml4 (index_lower h)

/-- Mapping pages changes no byte that can be read. -/
theorem fills_of_region {flags : Flags} {count page : Nat} (hs : Shape lowerHalf kind s.ram)
    (hpml4 : kind pml4 = .root)
    (h : Region lowerHalf pool pml4 (lowerHalf pml4) flags count page kind s kind' s') :
    Fills pool pml4 len (fun _ => none) kind s kind' s' := by
  refine { h.toGrows with filled := nofun, unfilled := ?_, sliced := ?_ }
  · intro va b hva _ hread
    have hpage : va / 4096 < 2 ^ 35 := by omega
    obtain ⟨tr, hw, rfl⟩ := Option.map_eq_some_iff.mp hread
    obtain ⟨tr', hw', hframe, -⟩ := h.walks _ tr (index_lower hpage) hw
    have hdata := hs.walk_data (Nat.le_refl 3) (holds_lower hpml4 hpage) hw
    unfold readByte Ram.byte
    rw [hw', Option.map_some, hframe, h.contents _ _ hdata]
  · exact ⟨[], by rw [h.reads_eq, List.append_nil], fun r hr => nomatch hr⟩

theorem fills_refl (hs : Shape lowerHalf kind s.ram) (hfree : Free kind s.frames)
    (hbytes : ∀ va, bytes va = none) : Fills pool pml4 len bytes kind s kind s := by
  refine { grows_refl hs hfree with filled := ?_, unfilled := fun _ _ _ _ h => h, sliced := ?_ }
  · intro va b _ hb
    rw [hbytes va] at hb
    cases hb
  · exact ⟨[], (List.append_nil _).symm, fun r hr => nomatch hr⟩

theorem Fills.trans (h : Fills pool pml4 len bytes kind s kind' s')
    (h' : Fills pool pml4 len bytes' kind' s' kind'' s'') :
    Fills pool pml4 len (fun va => (bytes' va).or (bytes va)) kind s kind'' s'' := by
  refine { Grows.trans h.toGrows h'.toGrows with filled := ?_, unfilled := ?_, sliced := ?_ }
  · intro va b hva hb
    rcases Option.or_eq_some_iff.mp hb with hb' | ⟨hnone, hb⟩
    · exact h'.filled va b hva hb'
    · exact h'.unfilled va b hva hnone (h.filled va b hva hb)
  · intro va b hva hnone hread
    obtain ⟨hnone', hnone⟩ := Option.or_eq_none_iff.mp hnone
    exact h'.unfilled va b hva hnone' (h.unfilled va b hva hnone hread)
  · obtain ⟨rs, hrs, hin⟩ := h.sliced
    obtain ⟨rs', hrs', hin'⟩ := h'.sliced
    refine ⟨rs ++ rs', by rw [hrs', hrs, List.append_assoc], fun r hr => ?_⟩
    rcases List.mem_append.mp hr with hr | hr
    · exact hin r hr
    · exact hin' r hr

/-! ## One chunk -/

/-- A frame that is mapped as a page holds no tables. -/
theorem setBytes_of_inner {f t : Frame} {page offset level key : Nat} {i : Fin 512}
    {chunk : List UInt8} {ram : Ram} (hf : kind f = .data page)
    (hin : Inner lowerHalf kind level key t i) : ram.setBytes f offset chunk t = ram t := by
  refine Ram.setBytes_of_frame_ne ?_
  rintro rfl
  exact hin.no_frame (.inr hf)

theorem grows_setBytes {f : Frame} {page offset : Nat} {chunk : List UInt8} {reads : List Span}
    (hs : Shape lowerHalf kind s.ram) (hfree : Free kind s.frames) (hpml4 : kind pml4 = .root)
    (hf : kind f = .data page) (hlen : offset + chunk.length ≤ 4096) :
    Grows lowerHalf pool pml4 (lowerHalf pml4) kind s kind { s with
      ram := s.ram.setBytes f offset chunk
      writes := s.writes ++ [⟨f.toNat * 4096 + offset, chunk.length⟩]
      reads := reads } := by
  have hroot : ∀ {r}, kind r = .root → s.ram.setBytes f offset chunk r = s.ram r := by
    rintro r hr
    refine Ram.setBytes_of_frame_ne ?_
    rintro rfl
    rw [hr] at hf
    cases hf
  have h : Grows lowerHalf pool pml4 (lowerHalf pml4) kind s kind s := grows_refl hs hfree
  constructor
  case shape =>
    refine hs.change (.refl kind) fun t i => ?_
    by_cases ht : t = f
    · subst ht
      exact .inr (fits_of_no_table fun level key hin => hin.no_frame (.inr hf))
    · exact .inl ⟨rfl, congrFun (Ram.setBytes_of_frame_ne ht) i⟩
  case free => exact hfree
  case ext => exact h.ext
  case left => exact h.left
  case taken => exact h.taken
  case kept => exact fun r i hr _ => congrFun (hroot hr) i
  case linked =>
    intro i hi
    show s.ram.setBytes f offset chunk pml4 i ≠ .unused
    rwa [hroot hpml4]
  case walks =>
    intro page tr hcover hw
    refine ⟨tr, ?_, rfl, id⟩
    rw [← hw]
    exact hs.walk_kept (fun t i l k hin => setBytes_of_inner hf hin) (Nat.le_refl 3)
      (holds_root hpml4 hcover)
  case apart =>
    intro t ht
    refine Ram.setBytes_of_frame_ne ?_
    rintro rfl
    rw [ht] at hf
    cases hf
  case written =>
    refine ⟨_, rfl, fun w hw => ⟨f, ne_other_of_data hf, ?_⟩⟩
    rw [List.mem_singleton.mp hw]
    refine ⟨Nat.le_add_right _ _, ?_⟩
    show f.toNat * 4096 + offset + chunk.length ≤ f.toNat * 4096 + 4096
    omega
  case mapped => exact h.mapped

/-- What is read after a chunk was written to the frame of its page. -/
theorem readByte_setBytes {va : Nat} {tr : Translation} {chunk : List UInt8}
    (hs : Shape lowerHalf kind s.ram) (hpml4 : kind pml4 = .root) (hva : va < 2 ^ 47)
    (hw : walk s.ram 3 pml4 (va / 4096) = some tr) (hlen : va % 4096 + chunk.length ≤ 4096) {a : Nat}
    (ha : a < 2 ^ 47) : readByte (s.ram.setBytes tr.frame (va % 4096) chunk) pml4 a =
      (rangeBytes va (va + chunk.length) (fun a => chunk.getD (a - va) 0) a).or
        (readByte s.ram pml4 a) := by
  have hpage : va / 4096 < 2 ^ 35 := by omega
  have hpage' : a / 4096 < 2 ^ 35 := by omega
  have hdata := hs.walk_data (Nat.le_refl 3) (holds_lower hpml4 hpage) hw
  have hwalk : walk (s.ram.setBytes tr.frame (va % 4096) chunk) 3 pml4 (a / 4096) =
      walk s.ram 3 pml4 (a / 4096) :=
    hs.walk_kept (fun t i l k hin => setBytes_of_inner hdata hin) (Nat.le_refl 3)
      (holds_lower hpml4 hpage')
  unfold readByte rangeBytes
  rw [hwalk]
  by_cases hsame : a / 4096 = va / 4096
  · rw [hsame, hw, Option.map_some, Option.map_some, Ram.byte_setBytes hlen (Nat.mod_lt _ (by decide))]
    by_cases hin : va ≤ a ∧ a < va + chunk.length
    · have hoffset : a % 4096 - va % 4096 = a - va := by omega
      have hlt : a - va < chunk.length := by omega
      rw [if_pos hin, if_pos (by omega), hoffset, Option.or_some, Option.getD_some,
        List.getD_eq_getElem _ _ hlt]
      exact congrArg some (List.getD_eq_getElem _ _ hlt).symm
    · rw [if_neg hin, Option.none_or]
      by_cases hle : va % 4096 ≤ a % 4096
      · rw [if_pos hle, List.getD_eq_default _ _ (by omega)]
      · rw [if_neg hle]
  · rw [if_neg (by omega), Option.none_or]
    -- the frame of another page
    rcases hw' : walk s.ram 3 pml4 (a / 4096) with _ | tr'
    · rw [Option.map_none, Option.map_none]
    · have hdata' := hs.walk_data (Nat.le_refl 3) (holds_lower hpml4 hpage') hw'
      have hne : tr'.frame ≠ tr.frame := by
        intro heq
        rw [heq, hdata] at hdata'
        injection hdata' with hpos
        rw [position_zero, position_zero] at hpos
        omega
      unfold Ram.byte
      rw [Option.map_some, Option.map_some, Ram.setBytes_of_frame_ne hne]

theorem fills_setBytes {va : Nat} {tr : Translation} {chunk : List UInt8} {rs : List Span}
    (hs : Shape lowerHalf kind s.ram) (hfree : Free kind s.frames) (hpml4 : kind pml4 = .root)
    (hva : va < 2 ^ 47) (hw : walk s.ram 3 pml4 (va / 4096) = some tr)
    (hlen : va % 4096 + chunk.length ≤ 4096) (hrs : ∀ r ∈ rs, r.start + r.size ≤ len) :
    Fills pool pml4 len (rangeBytes va (va + chunk.length) fun a => chunk.getD (a - va) 0) kind s kind
      { s with
        ram := s.ram.setBytes tr.frame (va % 4096) chunk
        writes := s.writes ++ [⟨tr.frame.toNat * 4096 + va % 4096, chunk.length⟩]
        reads := s.reads ++ rs } := by
  have hdata := hs.walk_data (Nat.le_refl 3) (holds_lower hpml4 (by omega)) hw
  refine { grows_setBytes hs hfree hpml4 hdata hlen with filled := ?_, unfilled := ?_, sliced := ?_ }
  · intro a b ha hb
    show readByte (s.ram.setBytes tr.frame (va % 4096) chunk) pml4 a = some b
    rw [readByte_setBytes hs hpml4 hva hw hlen ha, hb]
    rfl
  · intro a b ha hnone hread
    show readByte (s.ram.setBytes tr.frame (va % 4096) chunk) pml4 a = some b
    rw [readByte_setBytes hs hpml4 hva hw hlen ha, hnone, hread]
    rfl
  · exact ⟨rs, rfl, hrs⟩

/-! ## The loops -/

/-- The bytes that a loop copies: `content`, from a slice of `len` bytes. -/
def Supplies (stop len : Nat) (content : Nat → UInt8)
    (source : Nat → Nat → PanicM PhysMem (List UInt8)) : Prop :=
  ∀ offset n s, 0 < n → offset + n ≤ stop → Ends (source offset n) s
    (fun chunk s' => chunk.length = n ∧ (∀ k, k < n → chunk.getD k 0 = content (offset + k)) ∧
      ∃ rs, s' = { s with reads := s.reads ++ rs } ∧ ∀ r ∈ rs, r.start + r.size ≤ len)
    (fun s' => s' = s)

theorem supplies_zeros (stop len : Nat) :
    Supplies stop len (fun _ => 0) fun _ n => pure (List.replicate n 0) := by
  intro offset n s _ _
  rw [ends_pure]
  refine ⟨List.length_replicate, fun k hk => ?_, [], ?_, fun r hr => nomatch hr⟩
  · exact List.getD_replicate 0 hk
  · rw [List.append_nil]

theorem supplies_readSlice {fileOffset fileSize : Nat} (hfile : fileOffset + fileSize ≤ data.length) :
    Supplies fileSize data.length (fun i => data.getD (fileOffset + i) 0)
      (readSlice data fileOffset) := by
  intro offset n s hn hstop
  rw [ends_readSlice]
  refine ⟨fun _ => ⟨?_, fun k hk => ?_, [⟨fileOffset + offset, n⟩], rfl, fun r hr => ?_⟩, fun _ => rfl⟩
  · rw [List.length_take, List.length_drop]
    omega
  · dsimp only
    rw [List.getD_eq_getElem?_getD, List.getD_eq_getElem?_getD, List.getElem?_take_of_lt hk,
      List.getElem?_drop, Nat.add_assoc]
  · rw [List.mem_singleton.mp hr]
    show fileOffset + offset + n ≤ data.length
    omega

/-- One round of a loop, over tables of the lower half: the bytes go to the page that the address is mapped to. -/
theorem ends_fillRange_walk (hc : c.Lawful) (hs : Shape lowerHalf kind s.ram) {virtStart stop fuel offset : Nat}
    {source : Nat → Nat → PanicM PhysMem (List UInt8)} {Q : Nat → PhysMem → Prop} {E : PhysMem → Prop}
    (hin : Holds lowerHalf kind 3 ((virtStart + offset) / 4096) pml4) (hlt : offset < stop)
    (hcanonical : canonical (virtStart + offset) = false → E s)
    (hunmapped : walk s.ram 3 pml4 ((virtStart + offset) / 4096) = none → E s)
    (hround : ∀ tr n, walk s.ram 3 pml4 ((virtStart + offset) / 4096) = some tr → 0 < n → offset + n ≤ stop →
      (virtStart + offset) % 4096 + n ≤ 4096 →
      Ends (source offset n) s (fun chunk s' =>
        Ends (addUsize offset n >>= fillRange c pml4 virtStart stop source fuel) { s' with
          ram := s'.ram.setBytes tr.frame ((virtStart + offset) % 4096) chunk
          writes := s'.writes ++ [⟨tr.frame.toNat * 4096 + (virtStart + offset) % 4096, chunk.length⟩] } Q E) E) :
    Ends (fillRange c pml4 virtStart stop source (fuel + 1) offset) s Q E := by
  have htranslate := translateAddr_eq_walk hc hs _ hin
  refine ends_fillRange_round hlt hcanonical (fun hnone => hunmapped ?_) fun phys n hphys hn hstop hfit => ?_
  · rw [htranslate] at hnone
    exact Option.map_eq_none_iff.mp hnone
  · rw [htranslate] at hphys
    obtain ⟨tr, hw, rfl⟩ := Option.map_eq_some_iff.mp hphys
    have hframe : (tr.frame.toNat * 4096 + (virtStart + offset) % 4096) / 4096 = tr.frame.toNat := by omega
    have hoffset : (tr.frame.toNat * 4096 + (virtStart + offset) % 4096) % 4096 = (virtStart + offset) % 4096 := by
      omega
    rw [hframe, hoffset, BitVec.ofNat_toNat, BitVec.setWidth_eq]
    exact hround tr n hw hn hstop hfit

/-- A loop fills its range. -/
theorem fillRange_ends (pool : List Frame) (hc : c.Lawful) (hpml4 : kind pml4 = .root) {virtStart stop : Nat}
    {content : Nat → UInt8} {source : Nat → Nat → PanicM PhysMem (List UInt8)}
    (hlow : virtStart + stop ≤ 2 ^ 47) (hsource : Supplies stop len content source) (fuel : Nat) :
    ∀ {offset : Nat} {s : PhysMem}, offset ≤ stop → stop - offset ≤ fuel →
      Shape lowerHalf kind s.ram → Free kind s.frames →
      Ends (fillRange c pml4 virtStart stop source fuel offset) s
        (fun o s' => o = stop ∧ Fills pool pml4 len
          (rangeBytes (virtStart + offset) (virtStart + stop) fun a => content (a - virtStart))
          kind s kind s')
        (fun s' => Grows lowerHalf pool pml4 (lowerHalf pml4) kind s kind s') := by
  have hdone : ∀ {s : PhysMem}, Shape lowerHalf kind s.ram → Free kind s.frames →
      Fills pool pml4 len
        (rangeBytes (virtStart + stop) (virtStart + stop) fun a => content (a - virtStart))
        kind s kind s := by
    intro s hs hfree
    exact fills_refl hs hfree fun va => if_neg (by omega)
  induction fuel with
  | zero =>
    intro offset s hle hfuel hs hfree
    obtain rfl : offset = stop := by omega
    exact ⟨rfl, hdone hs hfree⟩
  | succ fuel ih =>
    intro offset s hle hfuel hs hfree
    have hrefl : Grows lowerHalf pool pml4 (lowerHalf pml4) kind s kind s := grows_refl hs hfree
    by_cases hlt : offset < stop
    · have hva : virtStart + offset < 2 ^ 47 := by omega
      refine ends_fillRange_walk hc hs (holds_lower hpml4 (by omega)) hlt (fun _ => hrefl) (fun _ => hrefl) ?_
      intro tr n hw hpos hstop hfit
      refine (hsource offset n s hpos hstop).mono ?_ fun s' hs' => hs' ▸ hrefl
      rintro chunk _ ⟨rfl, hchunk, rs, rfl, hrs⟩
      have hfill : Fills pool pml4 len _ kind s kind _ :=
        fills_setBytes hs hfree hpml4 hva hw hfit hrs
      rw [ends_bind, ends_addUsize]
      refine ⟨fun _ => ?_, fun _ => ?_⟩
      · refine (@ih (offset + chunk.length) _ (by omega) (by omega) hfill.shape hfill.free).mono ?_ ?_
        · rintro o s' ⟨ho, hrest⟩
          refine ⟨ho, ?_⟩
          rw [rangeBytes_chunk hchunk] at hfill
          have hboth := Fills.trans hfill hrest
          rwa [funext (rangeBytes_or (by omega) (by omega))] at hboth
        · exact fun s' hrest => Grows.trans hfill.toGrows hrest
      · exact hfill.toGrows
    · obtain rfl : offset = stop := by omega
      unfold fillRange
      rw [if_neg hlt]
      exact ⟨rfl, hdone hs hfree⟩

/-! ## Segments -/

/-- A segment that passes the tests of the loop. -/
structure Loadable (data : List UInt8) (ph : ProgramHeader) : Prop where
  nonempty : 0 < ph.memorySize
  sizes : ph.fileSize ≤ ph.memorySize
  file : ph.fileOffset + ph.fileSize ≤ data.length

theorem fileSize_le_memorySize {header : ElfHeader} {i : Nat} {ph : ProgramHeader}
    (h : parseProgramHeader data header i = .ok (some ph)) : ph.fileSize ≤ ph.memorySize := by
  unfold parseProgramHeader at h
  rcases hrange : programHeaderRange header i with _ | ⟨start, stop⟩ <;> rw [hrange] at h
  · cases h
  · obtain ⟨-, h⟩ := ite_error_eq_ok.mp h
    dsimp only at h
    split at h
    · cases h
    · obtain ⟨hsizes, h⟩ := ite_error_eq_ok.mp h
      cases h
      exact Nat.le_of_not_lt hsizes

theorem loadable_of_segmentAt {header : ElfHeader} {i : Nat} {ph : ProgramHeader}
    (h : segmentAt data header i = .ok (some ph)) : Loadable data ph := by
  obtain ⟨hparse, hmem, -, hfile⟩ := segmentAt_eq_some h
  exact ⟨Nat.pos_of_ne_zero hmem, fileSize_le_memorySize hparse, hfile⟩

/-- The bytes of the file and the zeros after them are the bytes of the segment. -/
theorem bytes_eq (ph : ProgramHeader) (hsizes : ph.fileSize ≤ ph.memorySize) :
    (fun va => (rangeBytes (ph.virtualAddress + ph.fileSize) (ph.virtualAddress + ph.memorySize)
      (fun _ => 0) va).or ((rangeBytes (ph.virtualAddress + 0) (ph.virtualAddress + ph.fileSize)
        (fun a => data.getD (ph.fileOffset + (a - ph.virtualAddress)) 0) va).or none)) =
      ph.bytes data := by
  unfold ProgramHeader.bytes
  have hzeros : rangeBytes (ph.virtualAddress + ph.fileSize) (ph.virtualAddress + ph.memorySize)
      (fun _ => 0) = rangeBytes (ph.virtualAddress + ph.fileSize) (ph.virtualAddress + ph.memorySize)
        (fun va => ph.content data (va - ph.virtualAddress)) :=
    rangeBytes_congr fun va hge _ => (if_neg (by omega)).symm
  have hfile : rangeBytes (ph.virtualAddress + 0) (ph.virtualAddress + ph.fileSize)
      (fun a => data.getD (ph.fileOffset + (a - ph.virtualAddress)) 0) =
      rangeBytes ph.virtualAddress (ph.virtualAddress + ph.fileSize)
        (fun va => ph.content data (va - ph.virtualAddress)) :=
    rangeBytes_congr fun va hge hlt => (if_pos (by omega)).symm
  funext va
  rw [hzeros, hfile, Option.or_none, rangeBytes_or (by omega) (by omega)]

theorem loadSegment_ends (hc : c.Lawful) (hs : Shape lowerHalf kind s.ram) (hfree : Free kind s.frames)
    (hpml4 : kind pml4 = .root) (hpool : s.frames ⊆ pool) {ph : ProgramHeader} (hph : Loadable data ph)
    (hlow : ph.virtualAddress + ph.memorySize ≤ 2 ^ 47) :
    Ends (loadSegment c pml4 data ph) s
      (fun _ s' => ∃ kind', Fills pool pml4 data.length (ph.bytes data) kind s kind' s')
      (fun s' => ∃ kind', Grows lowerHalf pool pml4 (lowerHalf pml4) kind s kind' s') := by
  have hmem := hph.nonempty
  have hsizes := hph.sizes
  unfold loadSegment
  rw [ends_bind, ends_virtAddr]
  refine ⟨fun _ => ?_, fun _ => ⟨kind, grows_refl hs hfree⟩⟩
  rw [ends_bind]
  refine (mapUserRegion_ends hc hs hfree hpml4 hpool (fun _ h => h) hmem
    (fun page _ hpage => index_lower (by omega))).mono ?_ fun _ h => h
  rintro _ s₁ ⟨kind₁, hregion⟩
  have hpml4₁ : kind₁ pml4 = .root := hregion.ext.root hpml4
  have hmapped : Fills pool pml4 data.length _ kind s kind₁ s₁ := fills_of_region hs hpml4 hregion
  unfold copyFile
  rw [ends_bind]
  refine (fillRange_ends pool hc hpml4₁ (by omega) (supplies_readSlice hph.file) ph.fileSize
    (Nat.zero_le _) (Nat.sub_le _ _) hregion.shape hregion.free).mono ?_ ?_
  · rintro _ s₂ ⟨rfl, hcopied⟩
    have hloaded := Fills.trans hmapped hcopied
    unfold zeroBss
    rw [ends_bind]
    refine (fillRange_ends pool hc hpml4₁ hlow (supplies_zeros ph.memorySize data.length) ph.memorySize
      hsizes (Nat.sub_le _ _) hcopied.shape hcopied.free).mono ?_ ?_
    · rintro _ s₃ ⟨-, hzeroed⟩
      refine ⟨kind₁, ?_⟩
      rw [← bytes_eq ph hsizes]
      exact Fills.trans hloaded hzeroed
    · exact fun s₃ h => ⟨kind₁, Grows.trans hloaded.toGrows h⟩
  · exact fun s₂ h => ⟨kind₁, Grows.trans hregion.toGrows h⟩

theorem loadAll_ends (hc : c.Lawful) {phs : List ProgramHeader} :
    ∀ {kind : Frame → Kind} {s : PhysMem}, Shape lowerHalf kind s.ram → Free kind s.frames →
      kind pml4 = .root → s.frames ⊆ pool →
      (∀ ph ∈ phs, Loadable data ph ∧ ph.virtualAddress + ph.memorySize ≤ 2 ^ 47) →
      Ends (loadAll c pml4 data phs) s
        (fun _ s' => ∃ kind', Fills pool pml4 data.length (imageBytes data phs) kind s kind' s')
        (fun s' => ∃ kind', Grows lowerHalf pool pml4 (lowerHalf pml4) kind s kind' s') := by
  induction phs with
  | nil =>
    intro kind s hs hfree _ _ _
    exact ⟨kind, fills_refl hs hfree fun _ => rfl⟩
  | cons ph phs ih =>
    intro kind s hs hfree hpml4 hpool hphs
    obtain ⟨hph, hlow⟩ := hphs ph List.mem_cons_self
    unfold loadAll
    rw [ends_bind]
    refine (loadSegment_ends hc hs hfree hpml4 hpool hph hlow).mono ?_ fun _ h => h
    rintro _ s₁ ⟨kind₁, h⟩
    have hpml4₁ : kind₁ pml4 = .root := h.ext.root hpml4
    refine (ih h.shape h.free hpml4₁ (fun f hf => hpool (h.left.subset hf))
      fun q hq => hphs q (List.mem_cons_of_mem _ hq)).mono ?_ ?_
    · rintro _ s₂ ⟨kind₂, h'⟩
      exact ⟨kind₂, Fills.trans h h'⟩
    · rintro s₂ ⟨kind₂, h'⟩
      exact ⟨kind₂, Grows.trans h.toGrows h'⟩

/-! ## `new_from_elf` -/

/-- The state after `create_process_pml4`. -/
def created (cr3 pml4 : Frame) (frames : List Frame) (s : PhysMem) : PhysMem :=
  { s with
    ram := s.ram.setTable pml4 (newPml4 s.ram cr3 pml4)
    frames := frames
    writes := s.writes ++ [frameSpan pml4, frameSpan pml4] }

/-- A PML4, and nothing else that is known. -/
def rootOnly (pml4 : Frame) : Frame → Kind := Function.update (fun _ => .other) pml4 .root

/-- What `new_from_elf` has done once it has made the PML4, until it returns or panics. -/
def Loading (cr3 pml4 : Frame) (frames : List Frame) (s : PhysMem) (kind : Frame → Kind)
    (s' : PhysMem) : Prop :=
  s.frames = pml4 :: frames ∧ Grows lowerHalf frames pml4 (lowerHalf pml4) (rootOnly pml4)
    (created cr3 pml4 frames s) kind s'

theorem rootOnly_self : rootOnly pml4 pml4 = .root := Function.update_self ..

theorem Loading.root {cr3 : Frame} {frames : List Frame} (h : Loading cr3 pml4 frames s kind s') :
    kind pml4 = .root := h.2.ext.root rootOnly_self

/-- The frames in use are the PML4 and frames of the allocator. -/
theorem Loading.taken {cr3 f : Frame} {frames : List Frame} (h : Loading cr3 pml4 frames s kind s')
    (hf : kind f ≠ .other) : f ∈ s.frames := by
  obtain ⟨hframes, h⟩ := h
  rw [hframes]
  rcases h.taken f hf with hroot | hpool
  · have hpml4 : f = pml4 := by
      by_contra hne
      exact hroot (Function.update_of_ne hne _ _)
    rw [hpml4]
    exact List.mem_cons_self
  · exact List.mem_cons_of_mem _ hpool

/-- The process that is returned. -/
structure LoadedAs (data : List UInt8) (header : ElfHeader) (s : PhysMem) (process : Process)
    (s' : PhysMem) : Prop where
  table : tableResult data header header.programHeaderCount 0 = .ok ()
  image : ∀ va b, va < 2 ^ 47 →
    imageBytes data (segmentsFrom data header header.programHeaderCount 0) va = some b →
      readByte s'.ram process.pml4 va = some b
  stackTop : process.stackTop = 0x700000008000
  stack : ∀ n, n < 8 → ∃ tr, walk s'.ram 3 process.pml4 (0x700000000 + n) = some tr ∧ tr.writable = true
  sliced : ∃ rs, s'.reads = s.reads ++ rs ∧ ∀ r ∈ rs, r.start + r.size ≤ data.length

theorem shape_created {cr3 : Frame} {frames : List Frame} :
    Shape lowerHalf (rootOnly pml4) (created cr3 pml4 frames s).ram := by
  refine shape_newPml4 (fun t i => ?_) rfl fun i hi hlow => absurd hlow (Nat.not_lt.mpr hi)
  exact fits_of_no_table fun level key hin => hin.ne_other rfl

theorem created_lower {cr3 : Frame} {frames : List Frame} {i : Fin 512} (hi : i.val < 256) :
    (created cr3 pml4 frames s).ram pml4 i = .unused := by
  show s.ram.setTable pml4 (newPml4 s.ram cr3 pml4) pml4 i = .unused
  rw [Ram.setTable_self]
  exact if_neg fun h => Nat.not_lt.mpr h.1 hi

theorem allWritable_created {cr3 : Frame} {frames : List Frame} :
    AllWritable lowerHalf (rootOnly pml4) (created cr3 pml4 frames s).ram := by
  intro t i level key hin
  by_cases ht : t = pml4
  · subst ht
    left
    rcases hin with hin | ⟨-, -, -, hlow⟩
    · rw [rootOnly, Function.update_self] at hin
      cases hin
    · exact created_lower hlow
  · exact absurd (Function.update_of_ne ht _ _) hin.ne_other

theorem free_created {cr3 : Frame} {frames : List Frame} (hnodup : (pml4 :: frames).Nodup) :
    Free (rootOnly pml4) (created cr3 pml4 frames s).frames :=
  Free.use ⟨hnodup, fun _ _ => rfl⟩ .root

/-- The steps of `new_from_elf`: the PML4, the entry point, the stack, the segments. -/
theorem ends_newFromElf_steps {cr3 : Frame} {header : ElfHeader} (hheader : parseHeader data = .ok header)
    {Q : Except ParseError Process → PhysMem → Prop} {E : PhysMem → Prop} (hempty : s.frames = [] → E s)
    (hentry : ∀ pml4 frames, s.frames = pml4 :: frames → canonical header.entry = false →
      E (created cr3 pml4 frames s))
    (h : ∀ pml4 frames, s.frames = pml4 :: frames → canonical header.entry = true →
      Ends (mapUserRegion c pml4 0x700000000000 32768 .writable) (created cr3 pml4 frames s)
        (fun _ s₁ => Ends (loadAll c pml4 data (segmentsFrom data header header.programHeaderCount 0)) s₁
          (fun _ => Q ((tableResult data header header.programHeaderCount 0).map
            fun _ => ⟨pml4.toNat, header.entry, 0x700000008000⟩)) E) E) :
    Ends (Process.newFromElf c cr3 data) s Q E := by
  unfold Process.newFromElf
  rw [hheader]
  dsimp only
  rw [ends_bind, ends_createProcessPml4]
  refine ⟨hempty, fun pml4 frames hframes => ?_⟩
  show Ends _ (created cr3 pml4 frames s) _ _
  unfold addAddr
  rw [ends_bind, ends_virtAddr]
  refine ⟨fun _ => ?_, fun hnot => absurd hnot (by decide)⟩
  rw [ends_bind, ends_virtAddr]
  refine ⟨fun _ => ?_, fun hnot => absurd hnot (by decide)⟩
  rw [ends_bind, ends_virtAddr]
  refine ⟨fun hcanonical => ?_, hentry pml4 frames hframes⟩
  rw [ends_bind]
  refine (h pml4 frames hframes hcanonical).mono ?_ fun _ h => h
  rintro _ s₁ h₁
  rw [ends_bind, ends_loadSegments]
  refine h₁.mono ?_ fun _ h => h
  rintro _ s₂ hq
  rcases htable : tableResult data header header.programHeaderCount 0 with e | _ <;>
    rw [htable] at hq <;> exact hq

/-- `new_from_elf` up to the loop over the program headers. -/
theorem ends_newFromElf (hc : c.Lawful) {cr3 : Frame} (hnodup : s.frames.Nodup) {header : ElfHeader}
    (hheader : parseHeader data = .ok header) {Q : Except ParseError Process → PhysMem → Prop}
    {E : PhysMem → Prop} (hE : E s)
    (hLoading : ∀ pml4 frames kind s', Loading cr3 pml4 frames s kind s' → E s')
    (h : ∀ pml4 frames kind s₁, s.frames = pml4 :: frames → kind pml4 = .root →
      Region lowerHalf frames pml4 (lowerHalf pml4) (regionFlags .writable) 8 0x700000000
        (rootOnly pml4) (created cr3 pml4 frames s) kind s₁ →
      Ends (loadAll c pml4 data (segmentsFrom data header header.programHeaderCount 0)) s₁
        (fun _ => Q ((tableResult data header header.programHeaderCount 0).map
          fun _ => ⟨pml4.toNat, header.entry, 0x700000008000⟩)) E) :
    Ends (Process.newFromElf c cr3 data) s Q E := by
  have hfree : ∀ {pml4 frames}, s.frames = pml4 :: frames →
      Free (rootOnly pml4) (created cr3 pml4 frames s).frames := fun hframes =>
    free_created (hframes ▸ hnodup)
  refine ends_newFromElf_steps hheader (fun _ => hE) (fun pml4 frames hframes _ => ?_)
    fun pml4 frames hframes _ => ?_
  · exact hLoading pml4 frames _ _ ⟨hframes, grows_refl shape_created (hfree hframes)⟩
  · refine (mapUserRegion_ends hc shape_created (hfree hframes) rootOnly_self (List.Subset.refl _)
      (fun _ h => h) (by decide) (fun page _ hpage => index_lower (by omega))).mono ?_
      fun s' ⟨kind, hgrows⟩ => hLoading pml4 frames kind s' ⟨hframes, hgrows⟩
    rintro _ s₁ ⟨kind₁, hstack⟩
    exact h pml4 frames kind₁ s₁ hframes (hstack.ext.root rootOnly_self) hstack

theorem newFromElf_ends (hc : c.Lawful) {cr3 : Frame} (hnodup : s.frames.Nodup) {header : ElfHeader}
    (hheader : parseHeader data = .ok header)
    (hlow : ∀ ph ∈ segmentsFrom data header header.programHeaderCount 0,
      ph.virtualAddress + ph.memorySize ≤ 2 ^ 47) :
    Ends (Process.newFromElf c cr3 data) s
      (fun r s' => (∃ pml4 frames kind, Loading cr3 pml4 frames s kind s') ∧
        ∀ process, r = .ok process → LoadedAs data header s process s')
      (fun s' => s' = s ∨ ∃ pml4 frames kind, Loading cr3 pml4 frames s kind s') := by
  refine ends_newFromElf hc hnodup hheader (.inl rfl)
    (fun pml4 frames kind s' h => .inr ⟨pml4, frames, kind, h⟩)
    fun pml4 frames kind₁ s₁ hframes hroot₁ hstack => ?_
  refine (loadAll_ends hc hstack.shape hstack.free hroot₁ hstack.left.subset fun ph hph => ?_).mono
    ?_ fun s' ⟨kind, h⟩ => .inr ⟨pml4, frames, kind, hframes, Grows.trans hstack.toGrows h⟩
  · obtain ⟨i, -, -, hi⟩ := segmentsFrom_mem hph
    exact ⟨loadable_of_segmentAt hi, hlow ph hph⟩
  · rintro _ s₂ ⟨kind₂, hfills⟩
    refine ⟨⟨pml4, frames, kind₂, hframes, Grows.trans hstack.toGrows hfills.toGrows⟩, ?_⟩
    intro process hprocess
    rcases htable : tableResult data header header.programHeaderCount 0 with e | _ <;>
      rw [htable] at hprocess <;> cases hprocess
    constructor
    case table => exact htable
    case image =>
      intro va b hva hb
      rw [pml4_of_toNat]
      exact hfills.filled va b hva hb
    case stackTop => rfl
    case stack =>
      intro n hn
      have hlower : (index 3 (0x700000000 + n)).val < 256 := index_lower (by omega)
      obtain ⟨tr, hw⟩ := hstack.pages n hn
      have hwritable := (hstack.rights rfl allWritable_created).walk hstack.shape (Nat.le_refl 3)
        (holds_root hroot₁ hlower) hw
      obtain ⟨tr', hw', -, hkept⟩ := hfills.walks _ tr hlower hw
      rw [pml4_of_toNat]
      exact ⟨tr', hw', hkept hwritable⟩
    case sliced =>
      obtain ⟨rs, hrs, hin⟩ := hfills.sliced
      rw [hstack.reads_eq] at hrs
      exact ⟨rs, hrs, hin⟩

/-! ## Disjoint segments -/

theorem segmentsFrom_pairwise {header : ElfHeader} {R : ProgramHeader → ProgramHeader → Prop}
    {count : Nat} : ∀ {index : Nat}, (∀ i j p q, i < j → j < index + count →
      segmentAt data header i = .ok (some p) → segmentAt data header j = .ok (some q) → R p q) →
      (segmentsFrom data header count index).Pairwise R := by
  induction count with
  | zero => exact fun _ => .nil
  | succ count ih =>
    intro index h
    have hrest : (segmentsFrom data header count (index + 1)).Pairwise R :=
      ih fun i j p q hij hj => h i j p q hij (by omega)
    unfold segmentsFrom
    rcases hseg : segmentAt data header index with e | (_ | ph)
    · exact .nil
    · exact hrest
    · refine .cons (fun q hq => ?_) hrest
      obtain ⟨j, hle, hlt, hj⟩ := segmentsFrom_mem hq
      exact h index j ph q (by omega) (by omega) hseg hj

theorem bytes_of_covers {ph : ProgramHeader} {va : Nat} (h : ph.Covers va) :
    ph.bytes data va = some (ph.content data (va - ph.virtualAddress)) := if_pos h

theorem imageBytes_eq_none {phs : List ProgramHeader} {va : Nat} (h : ∀ ph ∈ phs, ¬ ph.Covers va) :
    imageBytes data phs va = none := by
  induction phs with
  | nil => rfl
  | cons ph phs ih =>
    unfold imageBytes
    rw [ih fun q hq => h q (List.mem_cons_of_mem _ hq), Option.none_or]
    exact if_neg (h ph List.mem_cons_self)

/-- Inside the file's part of a loaded segment the contents are the file's bytes. -/
theorem Loadable.content_eq {ph : ProgramHeader} (h : Loadable data ph) {k : Nat}
    (hk : k < ph.fileSize) : data[ph.fileOffset + k]? = some (ph.content data k) := by
  have hfile := h.file
  have hin : ph.fileOffset + k < data.length := by omega
  rw [ProgramHeader.content, if_pos hk, List.getD_eq_getElem _ _ hin, List.getElem?_eq_getElem hin]

theorem imageBytes_of_mem {phs : List ProgramHeader} {ph : ProgramHeader} {va : Nat}
    (hdisjoint : phs.Pairwise fun p q => ¬ (p.Covers va ∧ q.Covers va)) (hph : ph ∈ phs)
    (hva : ph.Covers va) :
    imageBytes data phs va = some (ph.content data (va - ph.virtualAddress)) := by
  induction phs with
  | nil => cases hph
  | cons q phs ih =>
    obtain ⟨hq, hphs⟩ := List.pairwise_cons.mp hdisjoint
    unfold imageBytes
    rcases List.mem_cons.mp hph with rfl | hph
    · rw [imageBytes_eq_none fun p hp hcovers => hq p hp ⟨hva, hcovers⟩, Option.none_or,
        bytes_of_covers hva]
    · rw [ih hphs hph, Option.some_or]

end ImageLemmas

open ElfLemmas ImageLemmas

/-- The program header `i` of the image is a `PT_LOAD` one. -/
def LoadAt (data : List UInt8) (i : Nat) (ph : ProgramHeader) : Prop :=
  ∃ header, parseHeader data = .ok header ∧ i < header.programHeaderCount ∧
    parseProgramHeader data header i = .ok (some ph)

/-- What a successful load has made: every segment reads as in the file, with zeros after it, the stack is
mapped writable, and no byte outside the image was read. -/
structure ImageLoaded (data : List UInt8) (process : Process) (s s' : PhysMem) : Prop where
  file : ∀ i ph, LoadAt data i ph → ∀ k, k < ph.fileSize → ∃ b, data[ph.fileOffset + k]? = some b ∧
    readByte s'.ram process.pml4 (ph.virtualAddress + k) = some b
  bss : ∀ i ph, LoadAt data i ph → ∀ k, ph.fileSize ≤ k → k < ph.memorySize →
    readByte s'.ram process.pml4 (ph.virtualAddress + k) = some 0
  stackTop : process.stackTop = 0x700000008000
  stack : ∀ page, (process.stackTop - 32768) / 4096 ≤ page → page < process.stackTop / 4096 →
    ∃ tr, walk s'.ram 3 process.pml4 page = some tr ∧ tr.writable = true
  parsed : ∃ header, parseHeaderIndexed data = .ok (.ok header) ∧
    ∀ i, ∃ r, parseProgramHeaderIndexed data header i = .ok r
  sliced : ∃ rs, s'.reads = s.reads ++ rs ∧ ∀ r ∈ rs, r.start + r.size ≤ data.length

/-- An image whose segments are disjoint ranges of the lower half is loaded as it is, wherever the segments
begin and end in their pages. -/
theorem elf_image_loaded {c : Mapper} (hc : c.Lawful) {data : List UInt8}
    (hlen : data.length ≤ isizeMax) {cr3 : Frame} {s s' : PhysMem} (hnodup : s.frames.Nodup)
    {process : Process} (hload : (Process.newFromElf c cr3 data).result s = some (.ok process, s'))
    (hlow : ∀ i ph va, LoadAt data i ph → ph.Covers va → va < 2 ^ 47)
    (hdisjoint : ∀ i j p q va, i ≠ j → LoadAt data i p → LoadAt data j q →
      ¬ (p.Covers va ∧ q.Covers va)) :
    ImageLoaded data process s s' := by
  rcases hheader : parseHeader data with e | header
  · unfold Process.newFromElf at hload
    rw [hheader] at hload
    cases hload
  have hloadAt : ∀ {i ph}, i < header.programHeaderCount →
      segmentAt data header i = .ok (some ph) → LoadAt data i ph := fun hi h =>
    ⟨header, hheader, hi, (segmentAt_eq_some h).1⟩
  have hsegments : ∀ ph ∈ segmentsFrom data header header.programHeaderCount 0,
      ph.virtualAddress + ph.memorySize ≤ 2 ^ 47 := by
    intro ph hph
    obtain ⟨i, -, hi, hseg⟩ := segmentsFrom_mem hph
    have hmem := (loadable_of_segmentAt hseg).nonempty
    have := hlow i ph (ph.virtualAddress + ph.memorySize - 1) (hloadAt (by omega) hseg)
      ⟨by omega, by omega⟩
    omega
  obtain ⟨-, hloaded⟩ := (newFromElf_ends hc hnodup hheader hsegments).returns hload
  obtain ⟨htable, himage, hstackTop, hstack, hsliced⟩ := hloaded process rfl
  -- a segment with a byte is one of those that were loaded
  have hread : ∀ {i ph}, LoadAt data i ph → ∀ {k}, k < ph.memorySize → Loadable data ph ∧
      readByte s'.ram process.pml4 (ph.virtualAddress + k) = some (ph.content data k) := by
    rintro i ph hat k hk
    obtain ⟨header', hheader', hi, hparse⟩ := id hat
    rw [hheader] at hheader'
    cases hheader'
    have hseg := segmentAt_of_parse htable (Nat.zero_le i) (by omega) hparse (by omega)
    have hcovers : ph.Covers (ph.virtualAddress + k) := ⟨by omega, by omega⟩
    have hpairwise : (segmentsFrom data header header.programHeaderCount 0).Pairwise
        fun p q => ¬ (p.Covers (ph.virtualAddress + k) ∧ q.Covers (ph.virtualAddress + k)) :=
      segmentsFrom_pairwise fun i j p q hij hj hp hq =>
        hdisjoint i j p q _ (by omega) (hloadAt (by omega) hp) (hloadAt (by omega) hq)
    refine ⟨loadable_of_segmentAt hseg, himage _ _ (hlow i ph _ hat hcovers) ?_⟩
    rw [imageBytes_of_mem hpairwise (mem_segmentsFrom htable (Nat.zero_le i) (by omega) hseg) hcovers,
      Nat.add_sub_cancel_left]
  constructor
  case file =>
    intro i ph hat k hk
    obtain ⟨header', -, -, hparse⟩ := id hat
    obtain ⟨hloadable, hbyte⟩ := hread hat (Nat.lt_of_lt_of_le hk (fileSize_le_memorySize hparse))
    exact ⟨ph.content data k, hloadable.content_eq hk, hbyte⟩
  case bss =>
    intro i ph hat k hge hk
    rw [(hread hat hk).2]
    exact congrArg some (if_neg (by omega))
  case stackTop => exact hstackTop
  case stack =>
    intro page hge hlt
    rw [hstackTop] at hge hlt
    obtain ⟨n, rfl⟩ := Nat.exists_eq_add_of_le (show 0x700000000 ≤ page by omega)
    exact hstack n (by omega)
  case parsed =>
    have haccepted := (parseHeader_eq_ok_iff.mp hheader).1.ePhentsize
    refine ⟨header, by rw [parseHeaderIndexed_eq hlen, hheader], fun i => ?_⟩
    refine ⟨_, parseProgramHeaderIndexed_eq hlen ?_⟩
    rw [(parseHeader_eq_ok_iff.mp hheader).2]
    exact haccepted
  case sliced => exact hsliced

/-- The image has been loaded, and the result passes a test. -/
def loadedWith (test : Process → PhysMem → Bool) : Except ParseError Process × PhysMem → Bool
  | (.ok process, s) => test process s
  | (.error _, _) => false

theorem exists_loaded {r : Option (Except ParseError Process × PhysMem)} {test : Process → PhysMem → Bool}
    (h : r.any (loadedWith test) = true) :
    ∃ process s, r = some (.ok process, s) ∧ test process s = true := by
  obtain ⟨⟨result, s⟩, hr, htest⟩ := (Option.any_eq_true _ _).mp h
  cases result with
  | error e => cases htest
  | ok process => exact ⟨process, s, hr, htest⟩

/-- Two segments that meet in a page, the first of them across the end of a page. -/
def meetingRecords : List ElfRecord :=
  [⟨1, 5, 176, 0x400FFE, 0, 3, 5, 4096⟩, ⟨1, 6, 179, 0x401003, 0, 2, 2, 4096⟩]

/-- An image of a header, these records and five bytes. -/
def meetingElf : List UInt8 := programElf 0x400FFE meetingRecords [11, 12, 13, 14, 15]

/-- Memory without page tables, and frames 16 to 63. -/
def emptyMemory : PhysMem :=
  ⟨fun _ _ => .unused, (List.range 48).map fun i => BitVec.ofNat 40 (16 + i), [], [], []⟩

theorem meetingElf_loadAt {i : Nat} {ph : ProgramHeader} (h : LoadAt meetingElf i ph) :
    i = 0 ∧ ph = ⟨176, 0x400FFE, 0, 3, 5, 5, 4096⟩ ∨ i = 1 ∧ ph = ⟨179, 0x401003, 0, 2, 2, 6, 4096⟩ := by
  obtain ⟨header, hheader, hi, hparse⟩ := h
  have hheader' : parseHeader meetingElf = .ok ⟨0x400FFE, 64, 56, 2⟩ := by decide +kernel
  rw [hheader] at hheader'
  cases hheader'
  have hi' : i = 0 ∨ i = 1 := by
    dsimp only at hi
    omega
  rcases hi' with rfl | rfl
  · have hparse' : parseProgramHeader meetingElf ⟨0x400FFE, 64, 56, 2⟩ 0 =
      .ok (some ⟨176, 0x400FFE, 0, 3, 5, 5, 4096⟩) := by decide +kernel
    rw [hparse] at hparse'
    cases hparse'
    exact .inl ⟨rfl, rfl⟩
  · have hparse' : parseProgramHeader meetingElf ⟨0x400FFE, 64, 56, 2⟩ 1 =
      .ok (some ⟨179, 0x401003, 0, 2, 2, 6, 4096⟩) := by decide +kernel
    rw [hparse] at hparse'
    cases hparse'
    exact .inr ⟨rfl, rfl⟩

theorem elf_image_loaded_meeting : ∃ s',
    (Process.newFromElf plainMapper 1 meetingElf).result emptyMemory =
      some (.ok ⟨16, 0x400FFE, 0x700000008000⟩, s') ∧
    ImageLoaded meetingElf ⟨16, 0x400FFE, 0x700000008000⟩ emptyMemory s' := by
  have hrun : ((Process.newFromElf plainMapper 1 meetingElf).result emptyMemory).any
      (loadedWith fun process _ => decide (process = ⟨16, 0x400FFE, 0x700000008000⟩)) = true := by
    decide +kernel
  obtain ⟨process, s', hload, hprocess⟩ := exists_loaded hrun
  obtain rfl := of_decide_eq_true hprocess
  refine ⟨s', hload, elf_image_loaded plainMapper_lawful (by decide +kernel) (by decide +kernel) hload
    ?_ ?_⟩
  · rintro i ph va hat ⟨-, hlt⟩
    rcases meetingElf_loadAt hat with ⟨-, rfl⟩ | ⟨-, rfl⟩ <;> dsimp only at hlt <;> omega
  · rintro i j p q va hne hp hq ⟨⟨hp1, hp2⟩, ⟨hq1, hq2⟩⟩
    rcases meetingElf_loadAt hp with ⟨rfl, rfl⟩ | ⟨rfl, rfl⟩ <;>
      rcases meetingElf_loadAt hq with ⟨rfl, rfl⟩ | ⟨rfl, rfl⟩ <;>
      dsimp only at hp1 hp2 hq1 hq2 <;> omega

end Turnix
