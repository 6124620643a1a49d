import Turnix.LoadedSpace

/-!
# Stores to the pages of a program

A page can be written from ring 3 if its leaf allows it and so does every entry above. The loader maps pages with
different flags through the same tables: `map_to` gives the entries above a leaf the rights of that leaf, and never
takes a right away. So the leaf alone decides (`newFromElf_honoured`).
-/

namespace Turnix

open Lib Lib.Paging PanicM RegionLemmas LoaderLemmas ImageLemmas

/-- No entry above a leaf of the lower half takes away the right to write. -/
def Honoured (ram : Ram) (pml4 : Frame) : Prop :=
  ∀ p < 2 ^ 35, ∀ tr, walk ram 3 pml4 p = some tr → tr.flags.isWritable = true → tr.writable = true

namespace HonouredLemmas

variable {c : Mapper} {cr3 pml4 : Frame} {frames : List Frame} {s₀ s s' : PhysMem} {kind kind' : Frame → Kind}
  {a a' : AddressSpace} {data : List UInt8}

/-- A page that has its flags from before has its rights from before. -/
theorem Honoured.page (h : Honoured s.ram pml4)
    (hgrows : Grows lowerHalf frames pml4 (lowerHalf pml4) kind s kind' s') {p : Nat} (hp : p < 2 ^ 35)
    (hflags : (view s'.ram 3 pml4 p).map Prod.snd = (view s.ram 3 pml4 p).map Prod.snd) {tr' : Translation}
    (hw' : walk s'.ram 3 pml4 p = some tr') (hwritable : tr'.flags.isWritable = true) : tr'.writable = true := by
  have hold : (walk s.ram 3 pml4 p).map (·.flags) = some tr'.flags := by
    unfold view at hflags
    rw [hw', Option.map_map, Option.map_map, Option.map_some] at hflags
    exact hflags.symm
  obtain ⟨tr, hw, htr⟩ := Option.map_eq_some_iff.mp hold
  obtain ⟨tr'', hw'', -, hkept⟩ := hgrows.walks p tr (index_lower hp) hw
  rw [hw'] at hw''
  cases hw''
  exact hkept (h p hp tr hw (htr ▸ hwritable))

/-- Code that maps no page. -/
theorem Honoured.grows (h : Honoured s.ram pml4)
    (hgrows : Grows lowerHalf frames pml4 (lowerHalf pml4) kind s kind' s')
    (hflags : ∀ p < 2 ^ 35, (view s'.ram 3 pml4 p).map Prod.snd = (view s.ram 3 pml4 p).map Prod.snd) :
    Honoured s'.ram pml4 :=
  fun p hp _ hw hwritable => Honoured.page h hgrows hp (hflags p hp) hw hwritable

/-- A page is mapped. -/
theorem Honoured.mapPage (h : Honoured s.ram pml4) (hrep : Represents cr3 pml4 frames s₀ kind s a)
    {frame : Frame} {rest used : List Frame} {page : Nat} {flags : Flags} {out : MapOutcome} {writes : List Span}
    (hpage : page < 2 ^ 35) (hp : flags.isPresent = true) (hframes : s.frames = frame :: rest)
    (hwrites : writes ⊆ out.writes) (hmap : MapTo page frame flags 3 pml4 s.ram rest out)
    (heffect : MapEffect lowerHalf kind kind' page flags frame 3 pml4 s.ram rest used out)
    (hok : out.result = .ok ()) : Honoured out.ram pml4 := by
  have hspare : Spare kind page frame rest := Free.take (hframes ▸ hrep.free)
  have hregion : Region lowerHalf frames pml4 (lowerHalf pml4) flags 1 page kind s kind' _ :=
    region_mapTo hrep.shape hrep.free hrep.root hframes hrep.loading.2.left.subset (index_lower hpage)
      (hrep.holds hpage) hwrites hok heffect
  intro p hlt tr hw hwritable
  have hview := hrep.view_mapTo hpage hp hspare hmap heffect hok hlt
  by_cases heq : p = page
  · subst heq
    obtain ⟨tr', hw', -, hrights⟩ := heffect.walks hok
    rw [hw] at hw'
    cases hw'
    have hflags : tr.flags = flags := by
      rw [if_pos rfl] at hview
      unfold view at hview
      rw [hw] at hview
      exact (Prod.mk.inj (Option.some.inj hview)).2
    rw [hrights, ← hflags]
    exact hwritable
  · rw [if_neg heq] at hview
    exact Honoured.page h hregion.toGrows hlt (congrArg (Option.map Prod.snd) hview) hw hwritable

/-- The loop over the pages. -/
theorem mapUserPages_honoured (hc : c.Lawful) {flags : Flags} (hp : flags.isPresent = true)
    (hu : flags.isUser = true) {count : Nat} :
    ∀ {page : Nat} {kind : Frame → Kind} {s : PhysMem} {a : AddressSpace},
      Represents cr3 pml4 frames s₀ kind s a → Honoured s.ram pml4 → page < 2 ^ 35 →
      Ends (mapUserPages c pml4 flags count page) s (fun _ s' => Honoured s'.ram pml4) fun _ => True := by
  induction count with
  | zero => exact fun _ h _ => h
  | succ count ih =>
    intro page kind s a hrep h hpage
    have hdiv : page * 4096 / 4096 = page := Nat.mul_div_cancel page (by decide)
    have htr := translateAddr_eq_walk hc hrep.shape (page * 4096) (by
      rw [hdiv]
      exact hrep.holds hpage)
    rw [hdiv] at htr
    unfold mapUserPages
    rw [ends_bind, ends_nextPage, canonical_iff]
    refine ⟨fun hcanonical => ?_, fun _ => trivial⟩
    have hpage' : page + 1 < 2 ^ 35 := by omega
    rw [ends_bind, ends_get, htr]
    rcases hw : walk s.ram 3 pml4 page with _ | tr
    · have hnone : view s.ram 3 pml4 page = none := by
        unfold view
        rw [hw]
        rfl
      show Ends (allocateFrame >>= _) _ _ _
      rw [ends_expect_allocateFrame]
      refine ⟨fun _ => trivial, fun frame rest hframes => ?_⟩
      have hspare : Spare kind page frame rest := Free.take (hframes ▸ hrep.free)
      rw [ends_bind]
      refine ends_mapTo hc hrep.shape (hrep.holds hpage) hspare hp (fun _ => trivial)
        fun kind' used out writes hwrites hmap heffect => ?_
      rw [ends_bind, ends_expectOk]
      refine ⟨fun hok => ?_, fun _ _ => trivial⟩
      exact ih (hrep.mapPage hpage hnone hp hu hframes hwrites hmap heffect hok)
        (Honoured.mapPage h hrep hpage hp hframes hwrites hmap heffect hok) hpage'
    · exact ih hrep h hpage'

theorem mapUserRegion_honoured (hc : c.Lawful) (hrep : Represents cr3 pml4 frames s₀ kind s a)
    (h : Honoured s.ram pml4) {virtStart size : Nat} {extra : Flags} (hsize : 0 < size)
    (hstart : virtStart < 2 ^ 47) (hh : extra.isHuge = false) :
    Ends (mapUserRegion c pml4 virtStart size extra) s (fun _ s' => Honoured s'.ram pml4) fun _ => True := by
  have hcount : 0 < regionCount virtStart size := by
    unfold regionCount
    omega
  have hpage : virtStart / 4096 < 2 ^ 35 := by omega
  unfold mapUserRegion addAddr
  rw [ends_bind, ends_virtAddr]
  refine ⟨fun _ => ?_, fun _ => trivial⟩
  rw [ends_bind, ends_subAddr]
  refine ⟨fun _ => ?_, fun _ => trivial⟩
  rw [ends_bind]
  refine (Ends.and
    (mapUserPages_represents hc (regionFlags_isPresent extra) (regionFlags_isUser extra)
      ((regionFlags_isHuge extra).trans hh) hrep hpage)
    (mapUserPages_honoured hc (regionFlags_isPresent extra) (regionFlags_isUser extra) hrep h hpage)).mono ?_
    fun _ _ => trivial
  rintro _ s' ⟨⟨hlt, kind', hrep'⟩, h'⟩
  rw [ends_bind, ends_get, ends_setEntry]
  have hentry : s'.ram pml4 (index 3 (virtStart / 4096)) ≠ .unused := by
    intro hunused
    have hnone := hrep'.flags (virtStart / 4096) hpage
    rw [view_unused hunused] at hnone
    exact absurd hnone.symm (AddressSpace.flags_mapPages_ne_none (Nat.le_refl _) (Nat.lt_add_of_pos_right hcount))
  have hlower := index_lower hpage
  have hset := hrep'.setUser hlower hentry
  have hgrows := @grows_setUser lowerHalf frames pml4 (lowerHalf pml4) kind' s' _ hrep'.shape hrep'.free hrep'.root
    hlower hlower hentry
  exact Honoured.grows h' hgrows fun p hp => (hset.flags p hp).trans (hrep'.flags p hp).symm

/-- The bytes of a segment are written to pages that are mapped. -/
theorem loadSegment_honoured (hc : c.Lawful) (hrep : Represents cr3 pml4 frames s₀ kind s a)
    (h : Honoured s.ram pml4) {ph : ProgramHeader} (hph : LowStart data ph) :
    Ends (loadSegment c pml4 data ph) s (fun _ s' => Honoured s'.ram pml4) fun _ => True := by
  have hmem := hph.nonempty
  have hsizes := hph.sizes
  unfold loadSegment
  rw [ends_bind, ends_virtAddr]
  refine ⟨fun _ => ?_, fun _ => trivial⟩
  rw [ends_bind]
  have hhuge := (segmentFlags_bits ph.flags).1
  refine (Ends.and (mapUserRegion_represents hc hrep hmem hph.start hhuge)
    (mapUserRegion_honoured hc hrep h hmem hph.start hhuge)).mono ?_ fun _ _ => trivial
  rintro _ s₁ ⟨⟨hfits, kind₁, hrep₁⟩, h₁⟩
  have hmapped : ∀ va, ph.virtualAddress ≤ va → va < ph.virtualAddress + ph.memorySize →
      (a.mapRegion ph.virtualAddress ph.memorySize (segmentFlags ph.flags)).flags (va / 4096) ≠ none := by
    intro va hge hlt
    refine AddressSpace.flags_mapPages_ne_none (by omega) ?_
    unfold regionCount
    omega
  unfold copyFile
  rw [ends_bind]
  refine (Ends.and (fillRange_ends frames hc hrep₁.root (by omega) (supplies_readSlice hph.file) ph.fileSize
    (Nat.zero_le _) (Nat.sub_le _ _) hrep₁.shape hrep₁.free)
    (fillRange_represents hc (by omega) (supplies_readSlice hph.file) (returns_readSlice hph) (Nat.zero_le _)
      (Nat.sub_le _ _) hrep₁ fun va hge hlt => hmapped va (by omega) (by omega))).mono ?_ fun _ _ => trivial
  rintro _ s₂ ⟨⟨rfl, hcopied⟩, -, hrep₂⟩
  have h₂ : Honoured s₂.ram pml4 :=
    Honoured.grows h₁ hcopied.toGrows fun p hp => (hrep₂.flags p hp).trans (hrep₁.flags p hp).symm
  unfold zeroBss
  rw [ends_bind]
  refine (Ends.and (fillRange_ends frames hc hrep₂.root (by omega) (supplies_zeros ph.memorySize data.length)
    ph.memorySize hsizes (Nat.sub_le _ _) hrep₂.shape hrep₂.free)
    (fillRange_represents hc (by omega) (supplies_zeros ph.memorySize data.length) (fun _ _ _ _ _ => trivial) hsizes
      (Nat.sub_le _ _) hrep₂ fun va hge hlt => hmapped va (by omega) hlt)).mono ?_ fun _ _ => trivial
  rintro _ s₃ ⟨⟨-, hzeroed⟩, -, hrep₃⟩
  exact Honoured.grows h₂ hzeroed.toGrows fun p hp => (hrep₃.flags p hp).trans (hrep₂.flags p hp).symm

theorem loadAll_honoured (hc : c.Lawful) {phs : List ProgramHeader} :
    ∀ {kind : Frame → Kind} {s : PhysMem} {a : AddressSpace}, Represents cr3 pml4 frames s₀ kind s a →
      Honoured s.ram pml4 → (∀ ph ∈ phs, LowStart data ph) →
      Ends (loadAll c pml4 data phs) s (fun _ s' => Honoured s'.ram pml4) fun _ => True := by
  induction phs with
  | nil => exact fun _ h _ => h
  | cons ph phs ih =>
    intro kind s a hrep h hphs
    have hph := hphs ph List.mem_cons_self
    unfold loadAll
    rw [ends_bind]
    refine (Ends.and (loadSegment_represents hc hrep hph) (loadSegment_honoured hc hrep h hph)).mono ?_
      fun _ _ => trivial
    rintro _ s₁ ⟨⟨-, kind₁, hrep₁⟩, h₁⟩
    exact ih hrep₁ h₁ fun q hq => hphs q (List.mem_cons_of_mem _ hq)

/-- The new PML4 has no page yet. -/
theorem honoured_created (cr3 : Frame) (frames : List Frame) (s : PhysMem) :
    Honoured (created cr3 pml4 frames s).ram pml4 :=
  fun _ hp _ hw => absurd (created_lower (index_lower hp)) (walk_used hw)

end HonouredLemmas

open HonouredLemmas

/-- The program headers can be parsed. -/
def loads (data : List UInt8) : Bool :=
  match parseHeader data with
  | .ok header => (tableResult data header header.programHeaderCount 0).toBool
  | .error _ => false

/-- What `new_from_elf` has done when it returns, for an image in the lower half. -/
theorem newFromElf_honoured {c : Mapper} (hc : c.Lawful) {cr3 : Frame} {s : PhysMem} (hnodup : s.frames.Nodup)
    {data : List UInt8} (hlow : ∀ ph ∈ elfSegments data, ph.virtualAddress < 2 ^ 47) :
    Ends (Process.newFromElf c cr3 data) s
      (fun r s' => match r with
        | .ok process => loads data = true ∧ Honoured s'.ram process.pml4 ∧
          ∃ frames kind, Represents cr3 process.pml4 frames s kind s' (.load data (elfSegments data))
        | .error _ => loads data = false ∧ (s' = s ∨ ∃ pml4 frames kind, Loading cr3 pml4 frames s kind s'))
      fun _ => True := by
  rcases hheader : parseHeader data with e | header
  · have hloads : loads data = false := by
      unfold loads
      rw [hheader]
    unfold Process.newFromElf
    rw [hheader]
    exact ⟨hloads, .inl rfl⟩
  · have hloads : loads data = (tableResult data header header.programHeaderCount 0).toBool := by
      unfold loads
      rw [hheader]
    refine ends_newFromElf_steps hheader (fun _ => trivial) (fun _ _ _ _ => trivial)
      fun pml4 frames hframes _ => ?_
    have hcreated : Represents cr3 pml4 frames s _ _ _ := represents_created hframes hnodup
    refine (Ends.and (mapUserRegion_represents hc hcreated (by decide) (by decide) rfl)
      (mapUserRegion_honoured hc hcreated (honoured_created cr3 frames s) (by decide) (by decide) rfl)).mono ?_
      fun _ _ => trivial
    rintro _ s₁ ⟨⟨-, kind₁, hrep₁⟩, h₁⟩
    rw [← elfSegments_eq hheader]
    have hphs : ∀ ph ∈ elfSegments data, LowStart data ph := fun ph hph => lowStart_of_mem hph (hlow ph hph)
    refine (Ends.and (loadAll_represents hc hrep₁ hphs) (loadAll_honoured hc hrep₁ h₁ hphs)).mono ?_
      fun _ _ => trivial
    rintro _ s₂ ⟨⟨-, kind₂, hrep₂⟩, h₂⟩
    rcases htable : tableResult data header header.programHeaderCount 0 with e | _ <;> rw [htable] at hloads
    · exact ⟨hloads, .inr ⟨pml4, frames, kind₂, hrep₂.loading⟩⟩
    · refine ⟨hloads, ?_⟩
      rw [pml4_of_toNat]
      exact ⟨h₂, frames, kind₂, hrep₂⟩

end Turnix
