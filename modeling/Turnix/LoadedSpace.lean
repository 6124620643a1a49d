import Mathlib.Data.Finset.Card
import Mathlib.Data.Finset.Range
import Turnix.Lib.PageView
import Turnix.LoaderIsolation

/-!
# The address space of a loaded program

What the address space of a program is: flags for some pages, and bytes at some addresses
(`AddressSpace`). In these terms loading is a fold over the segments: a segment adds the pages that are not
there yet, with its own flags, and its bytes replace those before (`AddressSpace.load`).

`Represents` relates this to physical memory: the page tables map just those pages, with those flags; the
bytes can be read; and a byte that was not written is the one that its frame had when it was free. Every
step of `new_from_elf` keeps the relation (`loadAll_represents`), and in the lower half it panics only if
the allocator runs out or the loop over the pages comes to the last page.
-/

namespace Turnix

open Lib Lib.Paging PanicM RegionLemmas LoaderLemmas ImageLemmas

/-! ## The abstract address space -/

/-- The flags of the pages, by number, and the bytes that were written, by address. -/
structure AddressSpace where
  flags : Nat → Option Flags
  bytes : Nat → Option UInt8

namespace AddressSpace

def empty : AddressSpace := ⟨fun _ => none, fun _ => none⟩

/-- Map the pages of a range that are not mapped. -/
def mapPages (a : AddressSpace) (flags : Flags) (page count : Nat) : AddressSpace :=
  { a with flags := fun p => (a.flags p).or (if page ≤ p ∧ p < page + count then some flags else none) }

def mapRegion (a : AddressSpace) (virtStart size : Nat) (extra : Flags) : AddressSpace :=
  a.mapPages (regionFlags extra) (virtStart / 4096) (regionCount virtStart size)

def write (a : AddressSpace) (bytes : Nat → Option UInt8) : AddressSpace :=
  { a with bytes := fun va => (bytes va).or (a.bytes va) }

def loadSegment (data : List UInt8) (a : AddressSpace) (ph : ProgramHeader) : AddressSpace :=
  (a.mapRegion ph.virtualAddress ph.memorySize (segmentFlags ph.flags)).write (ph.bytes data)

/-- The stack only. -/
def withStack : AddressSpace := empty.mapRegion 0x700000000000 32768 .writable

def load (data : List UInt8) (phs : List ProgramHeader) : AddressSpace :=
  phs.foldl (loadSegment data) withStack

/-- The pages of the lower half that are mapped. -/
def pages (a : AddressSpace) : Finset Nat := (Finset.range (2 ^ 35)).filter fun p => (a.flags p).isSome

variable {a : AddressSpace} {flags : Flags} {page count : Nat}

theorem mapPages_zero : a.mapPages flags page 0 = a := by
  unfold mapPages
  have hflags : (fun p => (a.flags p).or (if page ≤ p ∧ p < page + 0 then some flags else none)) =
      a.flags := by
    funext p
    rw [if_neg (by omega), Option.or_none]
  rw [hflags]

theorem mapPages_succ :
    a.mapPages flags page (count + 1) = (a.mapPages flags page 1).mapPages flags (page + 1) count := by
  unfold mapPages
  congr 1
  funext p
  dsimp only
  rw [Option.or_assoc]
  congr 1
  by_cases hp : p = page
  · rw [if_pos (by omega), if_pos (by omega)]
    rfl
  · by_cases hin : page + 1 ≤ p ∧ p < page + 1 + count
    · rw [if_pos (by omega), if_neg (by omega), if_pos hin]
      rfl
    · rw [if_neg (by omega), if_neg (by omega), if_neg hin]
      rfl

/-- A page that is mapped stays as it is. -/
theorem mapPages_one_of_mapped (h : a.flags page ≠ none) : a.mapPages flags page 1 = a := by
  unfold mapPages
  have hflags : (fun p => (a.flags p).or (if page ≤ p ∧ p < page + 1 then some flags else none)) =
      a.flags := by
    funext p
    by_cases hp : p = page
    · obtain ⟨fl, hfl⟩ := Option.ne_none_iff_exists'.mp h
      rw [hp, hfl]
      rfl
    · rw [if_neg (by omega), Option.or_none]
  rw [hflags]

theorem flags_mapPages_ne_none {p : Nat} (hle : page ≤ p) (hlt : p < page + count) :
    (a.mapPages flags page count).flags p ≠ none := by
  show (a.flags p).or (if page ≤ p ∧ p < page + count then some flags else none) ≠ none
  rw [if_pos ⟨hle, hlt⟩]
  cases a.flags p <;> exact Option.some_ne_none _

theorem flags_mapPages_one (h : a.flags page = none) {p : Nat} :
    (a.mapPages flags page 1).flags p = if p = page then some flags else a.flags p := by
  show (a.flags p).or (if page ≤ p ∧ p < page + 1 then some flags else none) = _
  by_cases hp : p = page
  · rw [if_pos (by omega), if_pos hp, hp, h]
    rfl
  · rw [if_neg (by omega), if_neg hp, Option.or_none]

theorem card_pages_le (a : AddressSpace) : a.pages.card ≤ 2 ^ 35 :=
  (Finset.card_filter_le _ _).trans_eq (Finset.card_range _)

/-- A new page counts. -/
theorem card_pages_mapPages_one (hpage : page < 2 ^ 35) (h : a.flags page = none) :
    a.pages.card + 1 ≤ (a.mapPages flags page 1).pages.card := by
  have hnew : page ∉ a.pages := by
    intro hin
    have hsome := (Finset.mem_filter.mp hin).2
    rw [h] at hsome
    cases hsome
  rw [← Finset.card_insert_of_notMem hnew]
  refine Finset.card_le_card fun p hp => ?_
  unfold pages
  rw [Finset.mem_filter, Finset.mem_range, flags_mapPages_one h]
  rcases Finset.mem_insert.mp hp with rfl | hp
  · exact ⟨hpage, by rw [if_pos rfl]; rfl⟩
  · obtain ⟨hlt, hsome⟩ := Finset.mem_filter.mp hp
    refine ⟨Finset.mem_range.mp hlt, ?_⟩
    by_cases heq : p = page
    · rw [if_pos heq]
      rfl
    · rw [if_neg heq]
      exact hsome

end AddressSpace

/-! ## The relation to memory -/

/-- The lower half of the PML4 is the address space `a`, which the loader has made from the state `s₀`. -/
structure Represents (cr3 pml4 : Frame) (frames : List Frame) (s₀ : PhysMem) (kind : Frame → Kind)
    (s : PhysMem) (a : AddressSpace) : Prop where
  loading : Loading cr3 pml4 frames s₀ kind s
  /-- a frame that is used for a page is mapped as that page -/
  data : ∀ f p, kind f = .data p → p < 2 ^ 35 ∧ ∃ flags, view s.ram 3 pml4 p = some (f, flags)
  user : AllUser lowerHalf kind s.ram
  flags : ∀ p < 2 ^ 35, (view s.ram 3 pml4 p).map Prod.snd = a.flags p
  bytes : ∀ va < 2 ^ 47, ∀ b, a.bytes va = some b → readByte s.ram pml4 va = some b
  stale : ∀ va < 2 ^ 47, a.bytes va = none → ∀ f flags, view s.ram 3 pml4 (va / 4096) = some (f, flags) →
    readByte s.ram pml4 va = some (s₀.ram.byte f (va % 4096))
  /-- a page takes four frames at most, three of them for tables -/
  budget : s₀.frames.length ≤ s.frames.length + 1 + 4 * a.pages.card

/-- The allocator has run out, and it did not have a frame for each page and its tables. -/
def Exhausted (s₀ s : PhysMem) : Prop := s.frames = [] ∧ s₀.frames.length ≤ 2 ^ 37 + 8

section Representing

variable {c : Mapper} {cr3 pml4 : Frame} {frames : List Frame} {s₀ s s' : PhysMem} {kind : Frame → Kind}
  {a : AddressSpace} {data : List UInt8}

theorem readByte_eq_view (ram : Ram) (pml4 : Frame) (va : Nat) : readByte ram pml4 va =
    (view ram 3 pml4 (va / 4096)).map fun x => ram.byte x.1 (va % 4096) := by
  unfold readByte view
  rw [Option.map_map]
  rfl

/-- What can be read at an address depends on its page and the contents of the frame. -/
theorem readByte_congr {ram ram' : Ram} {va : Nat}
    (hview : view ram' 3 pml4 (va / 4096) = view ram 3 pml4 (va / 4096))
    (hdata : ∀ f flags, view ram 3 pml4 (va / 4096) = some (f, flags) → ram' f = ram f) :
    readByte ram' pml4 va = readByte ram pml4 va := by
  rw [readByte_eq_view, readByte_eq_view, hview]
  rcases hv : view ram 3 pml4 (va / 4096) with _ | ⟨f, flags⟩
  · simp only [Option.map_none]
  · simp only [Option.map_some, Ram.byte, hdata f flags hv]

theorem Represents.root (h : Represents cr3 pml4 frames s₀ kind s a) : kind pml4 = .root :=
  Loading.root h.loading

theorem Represents.shape (h : Represents cr3 pml4 frames s₀ kind s a) : Shape lowerHalf kind s.ram :=
  h.loading.2.shape

theorem Represents.free (h : Represents cr3 pml4 frames s₀ kind s a) : Free kind s.frames :=
  h.loading.2.free

theorem Represents.holds (h : Represents cr3 pml4 frames s₀ kind s a) {p : Nat} (hp : p < 2 ^ 35) :
    Holds lowerHalf kind 3 p pml4 := holds_lower h.root hp

/-- A page that is mapped has a frame of its own. -/
theorem Represents.kind_data (h : Represents cr3 pml4 frames s₀ kind s a) {p : Nat} (hp : p < 2 ^ 35)
    {f : Frame} {flags : Flags} (hview : view s.ram 3 pml4 p = some (f, flags)) : kind f = .data p := by
  obtain ⟨tr, hw, htr⟩ := Option.map_eq_some_iff.mp hview
  cases htr
  have hdata := h.shape.walk_data (Nat.le_refl 3) (h.holds hp) hw
  rwa [position_zero, Nat.mod_eq_of_lt (by omega)] at hdata

/-- A frame that is free is as it was. -/
theorem Represents.free_eq (h : Represents cr3 pml4 frames s₀ kind s a) {f : Frame}
    (hf : f ∈ s.frames) : s.ram f = s₀.ram f := by
  have hother := h.free.other f hf
  have hne : f ≠ pml4 := by
    rintro rfl
    rw [h.root] at hother
    cases hother
  rw [h.loading.2.apart f hother]
  exact Ram.setTable_of_ne hne _

theorem Represents.exhausted (h : Represents cr3 pml4 frames s₀ kind s a) (hfew : s.frames.length ≤ 4)
    (hend : s'.frames = []) : Exhausted s₀ s' := by
  have hbudget := h.budget
  have hpages := a.card_pages_le
  exact ⟨hend, by omega⟩

/-! ## Mapping pages -/

/-- A page that is not mapped has no leaf. -/
theorem Represents.no_leaf (h : Represents cr3 pml4 frames s₀ kind s a) {page : Nat}
    (hpage : page < 2 ^ 35) (hnone : view s.ram 3 pml4 page = none) :
    leafAt s.ram 3 pml4 page = .unused := by
  refine (h.shape.leafAt_data (Nat.le_refl 3) (h.holds hpage)).resolve_right fun hdata => ?_
  rw [position_zero, Nat.mod_eq_of_lt (by omega)] at hdata
  obtain ⟨-, flags, hview⟩ := h.data _ _ hdata
  rw [hnone] at hview
  cases hview

theorem Represents.view_mapTo (h : Represents cr3 pml4 frames s₀ kind s a) {kind' : Frame → Kind}
    {page : Nat} {frame : Frame} {rest used : List Frame} {flags : Flags} {out : MapOutcome}
    (hpage : page < 2 ^ 35) (hp : flags.isPresent = true) (hspare : Spare kind page frame rest)
    (hmap : MapTo page frame flags 3 pml4 s.ram rest out)
    (heffect : MapEffect lowerHalf kind kind' page flags frame 3 pml4 s.ram rest used out)
    (hok : out.result = .ok ()) {p : Nat} (hlt : p < 2 ^ 35) : view out.ram 3 pml4 p =
      if p = page then some (frame, flags) else view s.ram 3 pml4 p := by
  have hsame : position 0 p = position 0 page ↔ p = page := by
    rw [position_zero, position_zero]
    omega
  rw [heffect.shape.view_eq (Nat.le_refl 3) ((h.holds hlt).mono (heffect.extends hspare)),
    h.shape.view_eq (Nat.le_refl 3) (h.holds hlt),
    hmap.leafAt_eq (Nat.le_refl 3) h.shape (h.holds hpage) hspare.toFree p (h.holds hlt)]
  simp only [hsame, hok, and_true]
  by_cases heq : p = page
  · rw [if_pos heq, if_pos heq]
    exact if_pos hp
  · rw [if_neg heq, if_neg heq]

theorem Represents.mapPage {kind' : Frame → Kind} {frame : Frame} {rest used : List Frame} {page : Nat}
    {flags : Flags} {out : MapOutcome} {writes : List Span}
    (h : Represents cr3 pml4 frames s₀ kind s a) (hpage : page < 2 ^ 35)
    (hnone : view s.ram 3 pml4 page = none) (hp : flags.isPresent = true) (hu : flags.isUser = true)
    (hframes : s.frames = frame :: rest) (hwrites : writes ⊆ out.writes)
    (hmap : MapTo page frame flags 3 pml4 s.ram rest out)
    (heffect : MapEffect lowerHalf kind kind' page flags frame 3 pml4 s.ram rest used out)
    (hok : out.result = .ok ()) :
    Represents cr3 pml4 frames s₀ kind' { s with
      ram := out.ram
      frames := out.frames
      writes := s.writes ++ writes
      mapped := s.mapped ++ mapLog page flags out.result } (a.mapPages flags page 1) := by
  have hfree : Free kind (frame :: rest) := hframes ▸ h.free
  have hspare : Spare kind page frame rest := hfree.take
  have hregion : Region lowerHalf frames pml4 (lowerHalf pml4) flags 1 page kind s kind' _ :=
    region_mapTo h.shape h.free h.root hframes h.loading.2.left.subset (index_lower hpage)
      (h.holds hpage) hwrites hok heffect
  -- the new page has a frame that was free
  have hnew : out.ram frame = s₀.ram frame := by
    rw [← h.free_eq (hframes ▸ List.mem_cons_self)]
    exact heffect.frame_eq hspare (h.holds hpage)
  have hunmapped : a.flags page = none := by
    rw [← h.flags page hpage, hnone]
    rfl
  have hview : ∀ p < 2 ^ 35, view out.ram 3 pml4 p =
      if p = page then some (frame, flags) else view s.ram 3 pml4 p := fun p hlt =>
    h.view_mapTo hpage hp hspare hmap heffect hok hlt
  -- the pages that were there before are where they were, with what they contain
  have hold : ∀ {p f fl}, p < 2 ^ 35 → view s.ram 3 pml4 p = some (f, fl) →
      view out.ram 3 pml4 p = some (f, fl) ∧ out.ram f = s.ram f := by
    intro p f fl hp' hv
    have hne : p ≠ page := by
      rintro rfl
      rw [hnone] at hv
      cases hv
    rw [hview p hp', if_neg hne]
    exact ⟨hv, hregion.contents f p (h.kind_data hp' hv)⟩
  constructor
  case loading => exact ⟨h.loading.1, Grows.trans h.loading.2 hregion.toGrows⟩
  case data =>
    intro f p hf
    rcases heffect.data_cases (hfree.other frame List.mem_cons_self) hf with ⟨rfl, hkey⟩ | hk
    · rw [position_zero, Nat.mod_eq_of_lt (by omega)] at hkey
      subst hkey
      exact ⟨hpage, flags, by rw [hview p hpage, if_pos rfl]⟩
    · obtain ⟨hlt, fl, hv⟩ := h.data f p hk
      exact ⟨hlt, fl, (hold hlt hv).1⟩
  case user => exact h.user.mapTo hmap heffect hspare hu
  case flags =>
    intro p hp'
    show (view out.ram 3 pml4 p).map Prod.snd = _
    rw [hview p hp', AddressSpace.flags_mapPages_one hunmapped, ← h.flags p hp']
    by_cases heq : p = page
    · rw [if_pos heq, if_pos heq]
      rfl
    · rw [if_neg heq, if_neg heq]
  case bytes =>
    intro va hva b hb
    have hread := h.bytes va hva b hb
    rw [readByte_eq_view] at hread
    obtain ⟨⟨f, fl⟩, hv, -⟩ := Option.map_eq_some_iff.mp hread
    rw [← h.bytes va hva b hb]
    refine readByte_congr ((hold (by omega) hv).1.trans hv.symm) fun f' fl' hv' => ?_
    exact (hold (by omega) hv').2
  case stale =>
    intro va hva hb f fl hv
    have hv' : view out.ram 3 pml4 (va / 4096) = some (f, fl) := hv
    by_cases heq : va / 4096 = page
    · rw [hview _ (by omega), if_pos heq] at hv'
      cases hv'
      rw [readByte_eq_view, hv, Option.map_some]
      show some (out.ram.byte frame _) = _
      unfold Ram.byte
      rw [hnew]
    · rw [hview _ (by omega), if_neg heq] at hv'
      rw [← h.stale va hva hb f fl hv']
      refine readByte_congr (hv.trans hv'.symm) fun f' fl' hv'' => ?_
      exact (hold (by omega) hv'').2
  case budget =>
    have hcard : a.pages.card + 1 ≤ (a.mapPages flags page 1).pages.card :=
      AddressSpace.card_pages_mapPages_one hpage hunmapped
    have hle := hmap.frames_le
    have hbudget := h.budget
    rw [hframes, List.length_cons] at hbudget
    show s₀.frames.length ≤ out.frames.length + 1 + 4 * (a.mapPages flags page 1).pages.card
    omega

/-- The loop over the pages. It panics at the last page of the lower half, or if the allocator runs
out. -/
theorem mapUserPages_represents (hc : c.Lawful) {flags : Flags} (hp : flags.isPresent = true)
    (hu : flags.isUser = true) (hh : flags.isHuge = false) {count : Nat} :
    ∀ {page : Nat} {kind : Frame → Kind} {s : PhysMem} {a : AddressSpace},
      Represents cr3 pml4 frames s₀ kind s a → page < 2 ^ 35 →
      Ends (mapUserPages c pml4 flags count page) s
        (fun _ s' => page + count < 2 ^ 35 ∧
          ∃ kind', Represents cr3 pml4 frames s₀ kind' s' (a.mapPages flags page count))
        (fun s' => Exhausted s₀ s' ∨
          2 ^ 35 ≤ page + count ∧ ∃ kind' a', Represents cr3 pml4 frames s₀ kind' s' a') := by
  induction count with
  | zero =>
    intro page kind s a h hpage
    refine ⟨hpage, kind, ?_⟩
    rw [AddressSpace.mapPages_zero]
    exact h
  | succ count ih =>
    intro page kind s a h hpage
    -- the pages after this one, once this one is mapped
    have hnext : ∀ {kind' : Frame → Kind} {s' : PhysMem}, page + 1 < 2 ^ 35 →
        Represents cr3 pml4 frames s₀ kind' s' (a.mapPages flags page 1) →
        Ends (mapUserPages c pml4 flags count (page + 1)) s'
          (fun _ s'' => page + (count + 1) < 2 ^ 35 ∧
            ∃ kind'', Represents cr3 pml4 frames s₀ kind'' s'' (a.mapPages flags page (count + 1)))
          (fun s'' => Exhausted s₀ s'' ∨
            2 ^ 35 ≤ page + (count + 1) ∧ ∃ kind'' a', Represents cr3 pml4 frames s₀ kind'' s'' a') := by
      intro kind' s' hpage' h'
      rw [AddressSpace.mapPages_succ, ← Nat.add_assoc, Nat.add_right_comm]
      exact ih h' hpage'
    have hdiv : page * 4096 / 4096 = page := Nat.mul_div_cancel page (by decide)
    have htr := translateAddr_eq_walk hc h.shape (page * 4096) (by
      rw [hdiv]
      exact h.holds hpage)
    rw [hdiv] at htr
    unfold mapUserPages
    rw [ends_bind, ends_nextPage, canonical_iff]
    refine ⟨fun hcanonical => ?_, fun hlast => .inr ⟨by omega, kind, a, h⟩⟩
    have hpage' : page + 1 < 2 ^ 35 := by omega
    rw [ends_bind, ends_get, htr]
    rcases hw : walk s.ram 3 pml4 page with _ | tr
    · have hnone : view s.ram 3 pml4 page = none := by
        unfold view
        rw [hw]
        rfl
      show Ends (allocateFrame >>= _) _ _ _
      rw [ends_expect_allocateFrame]
      refine ⟨fun hempty => .inl (h.exhausted (by rw [hempty]; decide) hempty), fun frame rest hframes => ?_⟩
      have hfree : Free kind (frame :: rest) := hframes ▸ h.free
      rw [ends_bind]
      refine ends_mapTo hc h.shape (h.holds hpage) hfree.take hp (fun htrue => ?_)
        fun kind' used out writes hwrites hmap heffect => ?_
      · rw [hh] at htrue
        cases htrue
      rw [ends_bind, ends_expectOk]
      refine ⟨fun hok => hnext hpage' (h.mapPage hpage hnone hp hu hframes hwrites hmap heffect hok),
        fun e herr => .inl ?_⟩
      rcases hmap.ok_or_exhausted (Nat.le_refl 3) h.shape (h.holds hpage) hfree.tail
        (h.no_leaf hpage hnone) with hok | hempty
      · rw [herr] at hok
        cases hok
      · have hle := hmap.frames_le
        rw [hempty, List.length_nil] at hle
        refine h.exhausted ?_ hempty
        rw [hframes, List.length_cons]
        dsimp only at hle
        omega
    · have hmapped : a.flags page ≠ none := by
        rw [← h.flags page hpage]
        unfold view
        rw [hw]
        exact Option.some_ne_none _
      refine @hnext kind _ hpage' ?_
      rw [AddressSpace.mapPages_one_of_mapped hmapped]
      exact h

/-! ## Steps that map no page -/

theorem AddressSpace.write_write (a : AddressSpace) (bytes bytes' : Nat → Option UInt8) :
    (a.write bytes).write bytes' = a.write fun va => (bytes' va).or (bytes va) := by
  unfold AddressSpace.write
  congr 1
  funext va
  exact (Option.or_assoc).symm

theorem AddressSpace.write_none (a : AddressSpace) {bytes : Nat → Option UInt8} (h : ∀ va, bytes va = none) :
    a.write bytes = a := by
  unfold AddressSpace.write
  have hbytes : (fun va => (bytes va).or (a.bytes va)) = a.bytes := by
    funext va
    rw [h va, Option.none_or]
  rw [hbytes]

/-- A step that leaves the pages where they are, and writes some bytes. -/
theorem Represents.written (h : Represents cr3 pml4 frames s₀ kind s a) {bytes : Nat → Option UInt8}
    (hgrows : Grows lowerHalf frames pml4 (lowerHalf pml4) kind s kind s') (hframes : s'.frames = s.frames)
    (huser : AllUser lowerHalf kind s'.ram)
    (hview : ∀ p < 2 ^ 35, view s'.ram 3 pml4 p = view s.ram 3 pml4 p)
    (hread : ∀ va < 2 ^ 47, readByte s'.ram pml4 va = (bytes va).or (readByte s.ram pml4 va)) :
    Represents cr3 pml4 frames s₀ kind s' (a.write bytes) := by
  constructor
  case loading => exact ⟨h.loading.1, Grows.trans h.loading.2 hgrows⟩
  case data =>
    intro f p hf
    obtain ⟨hlt, fl, hv⟩ := h.data f p hf
    exact ⟨hlt, fl, (hview p hlt).trans hv⟩
  case user => exact huser
  case flags =>
    intro p hp
    rw [hview p hp]
    exact h.flags p hp
  case bytes =>
    intro va hva b hb
    rw [hread va hva]
    rcases Option.or_eq_some_iff.mp hb with hnew | ⟨hnone, hold⟩
    · rw [hnew, Option.some_or]
    · rw [hnone, Option.none_or, h.bytes va hva b hold]
  case stale =>
    intro va hva hb f fl hv
    obtain ⟨hnone, hold⟩ := Option.or_eq_none_iff.mp hb
    rw [hview _ (by omega)] at hv
    rw [hread va hva, hnone, Option.none_or]
    exact h.stale va hva hold f fl hv
  case budget =>
    rw [hframes]
    exact h.budget

/-! ## Regions -/

/-- The flag that makes an entry of the PML4 accessible changes no page. -/
theorem Represents.setUser (h : Represents cr3 pml4 frames s₀ kind s a) {i : Fin 512} (hi : i.val < 256)
    (hentry : s.ram pml4 i ≠ .unused) :
    Represents cr3 pml4 frames s₀ kind { s with
      ram := s.ram.set pml4 i { s.ram pml4 i with flags := (s.ram pml4 i).flags.union .user }
      writes := s.writes ++ [entrySpan pml4 i] } a := by
  have hgrows := @grows_setUser lowerHalf frames pml4 (lowerHalf pml4) kind s i h.shape h.free h.root hi hi hentry
  generalize he : ({ s.ram pml4 i with flags := (s.ram pml4 i).flags.union .user } : Entry) = e at *
  have hview : ∀ p < 2 ^ 35, view (s.ram.set pml4 i e) 3 pml4 p = view s.ram 3 pml4 p := by
    intro p hp
    have hshape : Shape lowerHalf kind (s.ram.set pml4 i e) := hgrows.shape
    rw [hshape.view_eq (Nat.le_refl 3) (h.holds hp), h.shape.view_eq (Nat.le_refl 3) (h.holds hp)]
    refine congrArg Entry.target (h.shape.leafAt_congr (Nat.le_refl 3) (h.holds hp) fun l f hl hf => ?_)
    by_cases heq : f = pml4 ∧ index l p = i
    · obtain ⟨rfl, hindex⟩ := heq
      have hl3 : 3 = l := (hf.unique (h.holds hp)).1
      rw [hindex, Ram.set_self, ← he]
      exact .inr ⟨by omega, hentry, rfl, .user, by decide, rfl⟩
    · exact .inl (Ram.set_of_ne heq e)
  have hdata : ∀ {p f fl}, p < 2 ^ 35 → view s.ram 3 pml4 p = some (f, fl) →
      s.ram.set pml4 i e f = s.ram f := by
    intro p f fl hp hv
    refine Ram.set_of_frame_ne ?_ i e
    rintro rfl
    have hk := h.kind_data hp hv
    rw [h.root] at hk
    cases hk
  have hread : ∀ va < 2 ^ 47, readByte (s.ram.set pml4 i e) pml4 va = readByte s.ram pml4 va := by
    intro va hva
    exact readByte_congr (hview _ (by omega)) fun f fl hv => hdata (by omega) hv
  have huser : AllUser lowerHalf kind (s.ram.set pml4 i e) := by
    intro t j l k hin
    by_cases heq : t = pml4 ∧ j = i
    · obtain ⟨rfl, rfl⟩ := heq
      rw [Ram.set_self, ← he]
      exact .inr ((Flags.isUser_union _ _).trans (Bool.or_true _))
    · rw [Ram.set_of_ne heq]
      exact h.user t j l k hin
  rw [← AddressSpace.write_none a fun _ => rfl]
  refine h.written hgrows rfl huser hview fun va hva => ?_
  rw [Option.none_or]
  exact hread va hva

theorem regionFlags_isPresent (extra : Flags) : (regionFlags extra).isPresent = true :=
  userFlags_isPresent extra

theorem regionFlags_isUser (extra : Flags) : (regionFlags extra).isUser = true := by
  unfold regionFlags
  rw [Flags.isUser_union]
  rfl

theorem regionFlags_isHuge (extra : Flags) : (regionFlags extra).isHuge = extra.isHuge := by
  unfold regionFlags
  rw [Flags.isHuge_union]
  rfl

theorem mapUserRegion_represents (hc : c.Lawful) (h : Represents cr3 pml4 frames s₀ kind s a)
    {virtStart size : Nat} {extra : Flags} (hsize : 0 < size) (hstart : virtStart < 2 ^ 47)
    (hh : extra.isHuge = false) :
    Ends (mapUserRegion c pml4 virtStart size extra) s
      (fun _ s' => virtStart + size ≤ 2 ^ 47 - 4096 ∧
        ∃ kind', Represents cr3 pml4 frames s₀ kind' s' (a.mapRegion virtStart size extra))
      (fun s' => Exhausted s₀ s' ∨ ¬ virtStart + size ≤ 2 ^ 47 - 4096 ∧
        ∃ kind' a', Represents cr3 pml4 frames s₀ kind' s' a') := by
  have hpages : virtStart / 4096 + regionCount virtStart size = (virtStart + size - 1) / 4096 + 1 := by
    unfold regionCount
    omega
  have hcount : 0 < regionCount virtStart size := by
    unfold regionCount
    omega
  unfold mapUserRegion addAddr
  rw [ends_bind, ends_virtAddr, ← Bool.not_eq_true, canonical_iff]
  refine ⟨fun hend => ?_, fun hend => .inr ⟨by omega, kind, a, h⟩⟩
  rw [ends_bind, ends_subAddr, canonical_iff]
  refine ⟨fun hlast => ?_, fun hlast => .inr ⟨by omega, kind, a, h⟩⟩
  rw [ends_bind]
  refine (mapUserPages_represents hc (regionFlags_isPresent extra) (regionFlags_isUser extra)
    ((regionFlags_isHuge extra).trans hh) h (show virtStart / 4096 < 2 ^ 35 by omega)).mono ?_ ?_
  · rintro _ s' ⟨hlt, kind', h'⟩
    rw [ends_bind, ends_get, ends_setEntry]
    -- the first page is mapped, so its entry in the PML4 is used
    have hentry : s'.ram pml4 (index 3 (virtStart / 4096)) ≠ .unused := by
      intro hunused
      have hflags := h'.flags (virtStart / 4096) (by omega)
      rw [view_unused hunused] at hflags
      exact absurd hflags.symm (AddressSpace.flags_mapPages_ne_none (Nat.le_refl _) (by omega))
    exact ⟨by omega, kind', h'.setUser (index_lower (by omega)) hentry⟩
  · rintro s' (hexhausted | ⟨hlt, h'⟩)
    · exact .inl hexhausted
    · exact .inr ⟨by omega, h'⟩

/-! ## Bytes -/

/-- A chunk is written to the page of its address. -/
theorem Represents.setBytes (h : Represents cr3 pml4 frames s₀ kind s a) {va : Nat} {tr : Translation}
    {chunk : List UInt8} {rs : List Span} (hva : va < 2 ^ 47)
    (hw : walk s.ram 3 pml4 (va / 4096) = some tr) (hlen : va % 4096 + chunk.length ≤ 4096) :
    Represents cr3 pml4 frames s₀ kind { s with
      ram := s.ram.setBytes tr.frame (va % 4096) chunk
      writes := s.writes ++ [⟨tr.frame.toNat * 4096 + va % 4096, chunk.length⟩]
      reads := s.reads ++ rs }
      (a.write (rangeBytes va (va + chunk.length) fun v => chunk.getD (v - va) 0)) := by
  have hk := h.shape.walk_data (Nat.le_refl 3) (h.holds (by omega)) hw
  have hwalk : ∀ p < 2 ^ 35, walk (s.ram.setBytes tr.frame (va % 4096) chunk) 3 pml4 p =
      walk s.ram 3 pml4 p := fun p hp =>
    h.shape.walk_kept (fun t i l k hin => setBytes_of_inner hk hin) (Nat.le_refl 3) (h.holds hp)
  have hview : ∀ p < 2 ^ 35, view (s.ram.setBytes tr.frame (va % 4096) chunk) 3 pml4 p =
      view s.ram 3 pml4 p := fun p hp => congrArg (Option.map _) (hwalk p hp)
  have huser : AllUser lowerHalf kind (s.ram.setBytes tr.frame (va % 4096) chunk) := by
    intro t i l k hin
    rw [setBytes_of_inner hk hin]
    exact h.user t i l k hin
  exact h.written (grows_setBytes h.shape h.free h.root hk hlen) rfl huser hview fun v hv =>
    readByte_setBytes h.shape h.root hva hw hlen hv

/-- A source that does not panic. -/
def Returns (stop : Nat) (source : Nat → Nat → PanicM PhysMem (List UInt8)) : Prop :=
  ∀ offset n s, 0 < n → offset + n ≤ stop → Ends (source offset n) s (fun _ _ => True) fun _ => False

/-- A loop over pages that are mapped does not panic. -/
theorem fillRange_represents (hc : c.Lawful) {virtStart stop len : Nat} {content : Nat → UInt8}
    {source : Nat → Nat → PanicM PhysMem (List UInt8)} (hlow : virtStart + stop ≤ 2 ^ 47)
    (hsource : Supplies stop len content source) (hreturns : Returns stop source) {fuel : Nat} :
    ∀ {offset : Nat} {s : PhysMem} {a : AddressSpace}, offset ≤ stop → stop - offset ≤ fuel →
      Represents cr3 pml4 frames s₀ kind s a →
      (∀ va, virtStart + offset ≤ va → va < virtStart + stop → a.flags (va / 4096) ≠ none) →
      Ends (fillRange c pml4 virtStart stop source fuel offset) s
        (fun o s' => o = stop ∧ Represents cr3 pml4 frames s₀ kind s'
          (a.write (rangeBytes (virtStart + offset) (virtStart + stop) fun v => content (v - virtStart))))
        fun _ => False := by
  have hdone : ∀ {s : PhysMem} {a : AddressSpace}, Represents cr3 pml4 frames s₀ kind s a →
      Represents cr3 pml4 frames s₀ kind s (a.write
        (rangeBytes (virtStart + stop) (virtStart + stop) fun v => content (v - virtStart))) := by
    intro s a h
    have hempty : ∀ va, rangeBytes (virtStart + stop) (virtStart + stop)
        (fun v => content (v - virtStart)) va = none := fun va => if_neg (by omega)
    rw [AddressSpace.write_none a hempty]
    exact h
  induction fuel with
  | zero =>
    intro offset s a hle hfuel h _
    obtain rfl : offset = stop := by omega
    exact ⟨rfl, hdone h⟩
  | succ fuel ih =>
    intro offset s a hle hfuel h hmapped
    by_cases hlt : offset < stop
    · have hva : virtStart + offset < 2 ^ 47 := by omega
      obtain ⟨tr, hw⟩ : ∃ tr, walk s.ram 3 pml4 ((virtStart + offset) / 4096) = some tr := by
        have hflags := hmapped (virtStart + offset) (Nat.le_refl _) (by omega)
        rw [← h.flags _ (by omega)] at hflags
        unfold view at hflags
        rw [Option.map_map, ne_eq, Option.map_eq_none_iff] at hflags
        exact Option.ne_none_iff_exists'.mp hflags
      have hcanonical : canonical (virtStart + offset) = true := canonical_iff.mpr (.inl hva)
      refine ends_fillRange_walk hc h.shape (h.holds (by omega)) hlt
        (fun hnot => absurd hcanonical (Bool.eq_false_iff.mp hnot))
        (fun hnone => Option.some_ne_none tr (hw.symm.trans hnone)) ?_
      intro tr' n hw' hpos hstop hfit
      cases hw.symm.trans hw'
      refine (Ends.and (hsource offset n s hpos hstop) (hreturns offset n s hpos hstop)).mono ?_
        fun _ h => h.2
      rintro chunk _ ⟨⟨rfl, hchunk, rs, rfl, -⟩, -⟩
      have hset := @Represents.setBytes _ _ _ _ _ _ _ h _ _ chunk rs hva hw hfit
      rw [ends_bind, ends_addUsize]
      refine ⟨fun _ => ?_, fun hnot => hnot (by omega)⟩
      refine (ih (by omega) (by omega) hset fun va hge hlt' => hmapped va (by omega) hlt').mono ?_
        fun _ h => h
      rintro o s' ⟨ho, hrest⟩
      refine ⟨ho, ?_⟩
      rw [rangeBytes_chunk hchunk, AddressSpace.write_write, funext (rangeBytes_or (by omega) (by omega))] at hrest
      exact hrest
    · obtain rfl : offset = stop := by omega
      unfold fillRange
      rw [if_neg hlt]
      exact ⟨rfl, hdone h⟩

/-! ## Segments -/

/-- A segment that passes the tests of the loop, and starts in the lower half. -/
structure LowStart (data : List UInt8) (ph : ProgramHeader) : Prop extends Loadable data ph where
  word : ph.fileOffset + ph.fileSize < 2 ^ 64
  start : ph.virtualAddress < 2 ^ 47

theorem lowStart_of_segmentAt {header : ElfHeader} {i : Nat} {ph : ProgramHeader}
    (h : segmentAt data header i = .ok (some ph)) (hstart : ph.virtualAddress < 2 ^ 47) :
    LowStart data ph :=
  ⟨loadable_of_segmentAt h, (segmentAt_eq_some h).2.2.1, hstart⟩

/-- It ends below the last page of the lower half. -/
def ProgramHeader.Fits (ph : ProgramHeader) : Prop :=
  ph.virtualAddress + ph.memorySize ≤ 2 ^ 47 - 4096

theorem returns_readSlice {ph : ProgramHeader} (h : LowStart data ph) :
    Returns ph.fileSize (readSlice data ph.fileOffset) := by
  intro offset n s hn hstop
  have hword := h.word
  have hfile := h.file
  rw [ends_readSlice]
  exact ⟨fun _ => trivial, fun hnot => hnot ⟨by omega, by omega⟩⟩

theorem segmentFlags_bits (flags : Nat) : (segmentFlags flags).isHuge = false ∧
    (segmentFlags flags).isWritable = decide (flags &&& pfW ≠ 0) ∧
    (segmentFlags flags).isNoExecute = decide (flags &&& pfX = 0) := by
  unfold segmentFlags
  dsimp only
  by_cases hw : flags &&& pfW ≠ 0 <;> by_cases hx : flags &&& pfX = 0
  · rw [if_pos hw, if_pos hx, decide_eq_true hw, decide_eq_true hx]
    exact ⟨rfl, rfl, rfl⟩
  · rw [if_pos hw, if_neg hx, decide_eq_true hw, decide_eq_false hx]
    exact ⟨rfl, rfl, rfl⟩
  · rw [if_neg hw, if_pos hx, decide_eq_false hw, decide_eq_true hx]
    exact ⟨rfl, rfl, rfl⟩
  · rw [if_neg hw, if_neg hx, decide_eq_false hw, decide_eq_false hx]
    exact ⟨rfl, rfl, rfl⟩

theorem loadSegment_represents (hc : c.Lawful) (h : Represents cr3 pml4 frames s₀ kind s a)
    {ph : ProgramHeader} (hph : LowStart data ph) :
    Ends (loadSegment c pml4 data ph) s
      (fun _ s' => ph.Fits ∧ ∃ kind', Represents cr3 pml4 frames s₀ kind' s' (a.loadSegment data ph))
      (fun s' => Exhausted s₀ s' ∨
        ¬ ph.Fits ∧ ∃ kind' a', Represents cr3 pml4 frames s₀ kind' s' a') := by
  have hmem := hph.nonempty
  have hsizes := hph.sizes
  unfold loadSegment
  rw [ends_bind, ends_virtAddr, ← Bool.not_eq_true, canonical_iff]
  refine ⟨fun _ => ?_, fun hnot => absurd (.inl hph.start) hnot⟩
  rw [ends_bind]
  refine (mapUserRegion_represents hc h hmem hph.start (segmentFlags_bits ph.flags).1).mono ?_
    fun _ h => h
  rintro _ s₁ ⟨hfits, kind₁, h₁⟩
  have hmapped : ∀ va, ph.virtualAddress ≤ va → va < ph.virtualAddress + ph.memorySize →
      (a.mapRegion ph.virtualAddress ph.memorySize (segmentFlags ph.flags)).flags (va / 4096) ≠ none := by
    intro va hge hlt
    refine AddressSpace.flags_mapPages_ne_none (by omega) ?_
    unfold regionCount
    omega
  unfold copyFile
  rw [ends_bind]
  refine (fillRange_represents hc (by omega) (supplies_readSlice hph.file) (returns_readSlice hph)
    (Nat.zero_le _) (Nat.sub_le _ _) h₁ fun va hge hlt => hmapped va (by omega) (by omega)).mono ?_
    fun _ h => h.elim
  rintro _ s₂ ⟨rfl, h₂⟩
  unfold zeroBss
  rw [ends_bind]
  refine (fillRange_represents hc (by omega) (supplies_zeros ph.memorySize data.length)
    (fun _ _ _ _ _ => trivial) hsizes (Nat.sub_le _ _) h₂
    fun va hge hlt => hmapped va (by omega) hlt).mono ?_ fun _ h => h.elim
  rintro _ s₃ ⟨-, h₃⟩
  have hbytes := @bytes_eq data ph hsizes
  simp only [Option.or_none] at hbytes
  rw [AddressSpace.write_write, hbytes] at h₃
  exact ⟨hfits, kind₁, h₃⟩

theorem loadAll_represents (hc : c.Lawful) {phs : List ProgramHeader} :
    ∀ {kind : Frame → Kind} {s : PhysMem} {a : AddressSpace}, Represents cr3 pml4 frames s₀ kind s a →
      (∀ ph ∈ phs, LowStart data ph) →
      Ends (loadAll c pml4 data phs) s
        (fun _ s' => (∀ ph ∈ phs, ph.Fits) ∧
          ∃ kind', Represents cr3 pml4 frames s₀ kind' s' (phs.foldl (AddressSpace.loadSegment data) a))
        (fun s' => Exhausted s₀ s' ∨ (¬ ∀ ph ∈ phs, ph.Fits) ∧
          ∃ kind' a', Represents cr3 pml4 frames s₀ kind' s' a') := by
  induction phs with
  | nil => exact fun {kind s a} h _ => ⟨fun ph hph => absurd hph List.not_mem_nil, kind, h⟩
  | cons ph phs ih =>
    intro kind s a h hphs
    unfold loadAll
    rw [ends_bind]
    refine (loadSegment_represents hc h (hphs ph List.mem_cons_self)).mono ?_ ?_
    · rintro _ s₁ ⟨hfits, kind₁, h₁⟩
      refine (ih h₁ fun q hq => hphs q (List.mem_cons_of_mem _ hq)).mono ?_ ?_
      · rintro _ s₂ ⟨hall, h₂⟩
        exact ⟨List.forall_mem_cons.mpr ⟨hfits, hall⟩, h₂⟩
      · rintro s₂ (hexhausted | ⟨hnot, h₂⟩)
        · exact .inl hexhausted
        · exact .inr ⟨fun hall => hnot fun q hq => hall q (List.mem_cons_of_mem _ hq), h₂⟩
    · rintro s₁ (hexhausted | ⟨hnot, h₁⟩)
      · exact .inl hexhausted
      · exact .inr ⟨fun hall => hnot (hall ph List.mem_cons_self), h₁⟩

/-! ## `new_from_elf` -/

/-- The new PML4 has an empty lower half. -/
theorem represents_created (hframes : s.frames = pml4 :: frames) (hnodup : s.frames.Nodup) :
    Represents cr3 pml4 frames s (rootOnly pml4) (created cr3 pml4 frames s) .empty := by
  have hnone : ∀ p < 2 ^ 35, view (created cr3 pml4 frames s).ram 3 pml4 p = none := fun p hp =>
    view_unused (created_lower (index_lower hp))
  constructor
  case loading =>
    exact ⟨hframes, grows_refl shape_created (free_created (hframes ▸ hnodup))⟩
  case data =>
    intro f p hf
    unfold rootOnly at hf
    by_cases heq : f = pml4
    · rw [heq, Function.update_self] at hf
      cases hf
    · rw [Function.update_of_ne heq] at hf
      cases hf
  case user =>
    rintro t i l k (hin | ⟨-, -, hroot, hlow⟩)
    · unfold rootOnly at hin
      by_cases heq : t = pml4
      · rw [heq, Function.update_self] at hin
        cases hin
      · rw [Function.update_of_ne heq] at hin
        cases hin
    · have ht : t = pml4 := by
        by_contra hne
        rw [rootOnly, Function.update_of_ne hne] at hroot
        cases hroot
      rw [ht]
      exact .inl (created_lower hlow)
  case flags =>
    intro p hp
    rw [hnone p hp]
    rfl
  case bytes =>
    intro va _ b hb
    cases hb
  case stale =>
    intro va hva _ f fl hv
    rw [hnone _ (by omega)] at hv
    cases hv
  case budget =>
    rw [hframes, List.length_cons]
    show frames.length + 1 ≤ frames.length + 1 + _
    omega

/-- `new_from_elf` up to the loop over the program headers. -/
theorem ends_newFromElf_space (hc : c.Lawful) (hnodup : s.frames.Nodup) {header : ElfHeader}
    (hheader : parseHeader data = .ok header) {Q : Except ParseError Process → PhysMem → Prop}
    {E : PhysMem → Prop} (hexhausted : ∀ s', Exhausted s s' → E s')
    (hentry : canonical header.entry = false → ∀ pml4 frames kind s',
      Represents cr3 pml4 frames s kind s' .empty → E s')
    (h : canonical header.entry = true → ∀ pml4 frames kind s₁,
      Represents cr3 pml4 frames s kind s₁ .withStack →
      Ends (loadAll c pml4 data (segmentsFrom data header header.programHeaderCount 0)) s₁
        (fun _ => Q ((tableResult data header header.programHeaderCount 0).map
          fun _ => ⟨pml4.toNat, header.entry, 0x700000008000⟩)) E) :
    Ends (Process.newFromElf c cr3 data) s Q E := by
  refine ends_newFromElf_steps hheader (fun hempty => ?_) (fun pml4 frames hframes hnot => ?_)
    fun pml4 frames hframes hcanonical => ?_
  · exact hexhausted s ⟨hempty, by rw [hempty]; decide⟩
  · exact hentry hnot pml4 frames _ _ (represents_created hframes hnodup)
  · refine (mapUserRegion_represents hc (represents_created hframes hnodup) (by decide) (by decide)
      rfl).mono ?_ ?_
    · rintro _ s₁ ⟨-, kind₁, h₁⟩
      exact h hcanonical pml4 frames kind₁ s₁ h₁
    · rintro s₁ (hend | ⟨hnot, -⟩)
      · exact hexhausted s₁ hend
      · exact absurd (by decide) hnot

theorem elfSegments_eq {header : ElfHeader} (h : parseHeader data = .ok header) :
    elfSegments data = segmentsFrom data header header.programHeaderCount 0 := by
  unfold elfSegments
  rw [h]

/-- A segment that is loaded is one of the table. -/
theorem loadAt_of_mem {ph : ProgramHeader} (h : ph ∈ elfSegments data) :
    ∃ header i, parseHeader data = .ok header ∧ i < header.programHeaderCount ∧
      segmentAt data header i = .ok (some ph) := by
  rcases hheader : parseHeader data with e | header
  · unfold elfSegments at h
    rw [hheader] at h
    cases h
  · rw [elfSegments_eq hheader] at h
    obtain ⟨i, -, hi, hseg⟩ := segmentsFrom_mem h
    exact ⟨header, i, rfl, by omega, hseg⟩

theorem lowStart_of_mem {ph : ProgramHeader} (h : ph ∈ elfSegments data) (hstart : ph.virtualAddress < 2 ^ 47) :
    LowStart data ph := by
  obtain ⟨header, i, -, -, hseg⟩ := loadAt_of_mem h
  exact lowStart_of_segmentAt hseg hstart

theorem memorySize_pos {ph : ProgramHeader} (h : ph ∈ elfSegments data) : 0 < ph.memorySize := by
  obtain ⟨header, i, -, -, hseg⟩ := loadAt_of_mem h
  exact (loadable_of_segmentAt hseg).nonempty

/-- What is known of an image that has been loaded, when its segments start in the lower half. -/
structure LoadedSpace (data : List UInt8) (cr3 : Frame) (s : PhysMem) (process : Process) (s' : PhysMem) :
    Prop where
  header : ∃ header, parseHeader data = .ok header ∧ canonical header.entry = true ∧
    tableResult data header header.programHeaderCount 0 = .ok ()
  fits : ∀ ph ∈ elfSegments data, ph.Fits
  space : ∃ frames kind, Represents cr3 process.pml4 frames s kind s' (.load data (elfSegments data))

/-- An image that has been loaded is the address space of its segments. -/
theorem newFromElf_loaded (hc : c.Lawful) (hnodup : s.frames.Nodup) {process : Process}
    (hload : (Process.newFromElf c cr3 data).result s = some (.ok process, s'))
    (hlow : ∀ ph ∈ elfSegments data, ph.virtualAddress < 2 ^ 47) :
    LoadedSpace data cr3 s process s' := by
  rcases hheader : parseHeader data with e | header
  · unfold Process.newFromElf at hload
    rw [hheader] at hload
    cases hload
  have hends : Ends (Process.newFromElf c cr3 data) s
      (fun r s' => ∀ process, r = .ok process → LoadedSpace data cr3 s process s') fun _ => True := by
    refine ends_newFromElf_space hc hnodup hheader (fun _ _ => trivial) (fun _ _ _ _ _ _ => trivial)
      fun hentry pml4 frames kind s₁ h => ?_
    rw [← elfSegments_eq hheader]
    refine (loadAll_represents hc h fun ph hph => lowStart_of_mem hph (hlow ph hph)).mono ?_
      fun _ _ => trivial
    rintro _ s₂ ⟨hfits, kind₂, h₂⟩ process hprocess
    rcases htable : tableResult data header header.programHeaderCount 0 with e | _ <;>
      rw [htable] at hprocess <;> cases hprocess
    refine ⟨⟨header, hheader, hentry, htable⟩, hfits, frames, kind₂, ?_⟩
    rw [pml4_of_toNat]
    exact h₂
  exact hends.returns hload process rfl

/-- Every segment with a byte has been loaded. -/
theorem LoadedSpace.complete {process : Process} (h : LoadedSpace data cr3 s process s') {i : Nat}
    {ph : ProgramHeader} (hat : LoadAt data i ph) (hmem : 0 < ph.memorySize) : ph ∈ elfSegments data := by
  obtain ⟨header, hheader, -, htable⟩ := h.header
  obtain ⟨header', hheader', hi, hparse⟩ := hat
  rw [hheader] at hheader'
  cases hheader'
  rw [elfSegments_eq hheader]
  refine mem_segmentsFrom htable (Nat.zero_le i) (by omega) ?_
  exact segmentAt_of_parse htable (Nat.zero_le i) (by omega) hparse (by omega)

/-! ## The pages of an image -/

/-- The segment has a byte in the page. -/
def ProgramHeader.Touches (ph : ProgramHeader) (page : Nat) : Prop :=
  0 < ph.memorySize ∧ ph.virtualAddress / 4096 ≤ page ∧
    page ≤ (ph.virtualAddress + ph.memorySize - 1) / 4096

instance (ph : ProgramHeader) (page : Nat) : Decidable (ph.Touches page) :=
  inferInstanceAs (Decidable (_ ∧ _))

/-- The page is one of the stack. -/
def StackPage (page : Nat) : Prop := 0x700000000 ≤ page ∧ page < 0x700000008

instance (page : Nat) : Decidable (StackPage page) := inferInstanceAs (Decidable (_ ∧ _))

/-- The first segment, in the order of the table, with a byte in the page. -/
def firstTouching (phs : List ProgramHeader) (page : Nat) : Option ProgramHeader :=
  phs.find? fun ph => decide (ph.Touches page)

theorem flags_loadSegment {ph : ProgramHeader} (hmem : 0 < ph.memorySize) (page : Nat) :
    (a.loadSegment data ph).flags page =
      (a.flags page).or (if ph.Touches page then some (regionFlags (segmentFlags ph.flags)) else none) := by
  show (a.flags page).or (if ph.virtualAddress / 4096 ≤ page ∧
    page < ph.virtualAddress / 4096 + regionCount ph.virtualAddress ph.memorySize then _ else _) = _
  congr 1
  refine if_congr ?_ rfl rfl
  unfold ProgramHeader.Touches regionCount
  omega

theorem flags_foldl {phs : List ProgramHeader} (hmem : ∀ ph ∈ phs, 0 < ph.memorySize) (page : Nat) :
    ∀ {a : AddressSpace}, (phs.foldl (AddressSpace.loadSegment data) a).flags page =
      (a.flags page).or ((firstTouching phs page).map fun ph => regionFlags (segmentFlags ph.flags)) := by
  induction phs with
  | nil => exact fun {a} => (Option.or_none).symm
  | cons ph phs ih =>
    intro a
    rw [List.foldl_cons, ih fun q hq => hmem q (List.mem_cons_of_mem _ hq),
      flags_loadSegment (hmem ph List.mem_cons_self), Option.or_assoc]
    congr 1
    unfold firstTouching
    by_cases htouch : ph.Touches page
    · rw [if_pos htouch, List.find?_cons, decide_eq_true htouch]
      rfl
    · rw [if_neg htouch, List.find?_cons, decide_eq_false htouch, Option.none_or]

/-- A page has the flags of the stack, or else those of the first segment that has a byte in it. -/
theorem flags_load {phs : List ProgramHeader} (hmem : ∀ ph ∈ phs, 0 < ph.memorySize) (page : Nat) :
    (AddressSpace.load data phs).flags page = if StackPage page then some (regionFlags .writable)
      else (firstTouching phs page).map fun ph => regionFlags (segmentFlags ph.flags) := by
  unfold AddressSpace.load
  rw [flags_foldl hmem]
  have hstack : AddressSpace.withStack.flags page =
      if StackPage page then some (regionFlags .writable) else none := by
    show Option.or none _ = _
    rw [Option.none_or]
    exact if_congr (by unfold StackPage regionCount; omega) rfl rfl
  rw [hstack]
  by_cases hpage : StackPage page
  · rw [if_pos hpage, if_pos hpage, Option.some_or]
  · rw [if_neg hpage, if_neg hpage, Option.none_or]

end Representing


end Turnix
