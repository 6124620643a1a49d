import Turnix.LoadedImage

/-!
# Isolation of the loader

`Process::new_from_elf` takes the addresses of the segments from the image. The PML4 that it fills has the
upper half of the kernel, `map_user_region` skips pages that are mapped, and the copy goes to wherever the
page tables say. So it stays within the frames that it allocates, and maps pages for the user in the lower
half only, exactly if no segment reaches beyond the lower half (`loader_isolated_iff`); with one that lies
at the heap of the kernel it writes the bytes of the file there (`kernel_heap_overwritten`).
-/

namespace Turnix

open Lib Lib.Paging PanicM RegionLemmas LoaderLemmas ImageLemmas

/-! ## Isolation -/

/-- The segments that are loaded, up to the first error. -/
def elfSegments (data : List UInt8) : List ProgramHeader :=
  match parseHeader data with
  | .ok header => segmentsFrom data header header.programHeaderCount 0
  | .error _ => []

/-- All of them lie in the lower half. -/
def LowSegments (data : List UInt8) : Prop :=
  ∀ ph ∈ elfSegments data, ph.virtualAddress + ph.memorySize ≤ 2 ^ 47

/-- What was written lies in frames that were allocated, and what was mapped for the user lies in the
lower half; `frames` are those of the allocator at the start. -/
structure LoadIsolated (frames : List Frame) (s : PhysMem) : Prop where
  writes : ∃ taken, frames = taken ++ s.frames ∧ ∀ w ∈ s.writes, ∃ f ∈ taken, w.Within (frameSpan f)
  user : ∀ m ∈ s.mapped, m.2.isUser = true → (index 3 m.1).val < 256

/-- The frames of the allocator are in no use: none is the PML4, or a table or a page of the upper half.
The flag of a large page is reserved in a PML4, and what the kernel has mapped is present and aligned, so that
`translate_addr` finds there what the hardware finds. -/
structure KernelTables (cr3 : Frame) (ram : Ram) (frames : List Frame) : Prop where
  root : cr3 ∉ frames
  plain : ∀ i : Fin 512, 256 ≤ i.val → (ram cr3 i).flags.isHuge = false
  unmapped : ∀ page, 256 ≤ (index 3 page).val → ∀ f ∈ walkFrames ram 3 cr3 page, f ∉ frames
  regular : ∀ page, 256 ≤ (index 3 page).val → Regular ram 3 cr3 page

/-- A write outside of the frames of the allocator, or a page of the user in the upper half. -/
def Escapes (frames : List Frame) (s : PhysMem) : Prop :=
  (∃ w ∈ s.writes, ∀ f ∈ frames, ¬ w.Within (frameSpan f)) ∨
    ∃ m ∈ s.mapped, m.2.isUser = true ∧ 256 ≤ (index 3 m.1).val

/-- The records only get longer. -/
def LogsGrow (s s' : PhysMem) : Prop := s.writes ⊆ s'.writes ∧ s.mapped ⊆ s'.mapped

namespace IsolationLemmas

variable {c : Mapper} {pml4 cr3 : Frame} {frames : List Frame} {kind : Frame → Kind} {s s' s'' : PhysMem}
  {data : List UInt8} {ph : ProgramHeader}

theorem LoadIsolated.not_escapes (h : LoadIsolated frames s) : ¬ Escapes frames s := by
  rintro (⟨w, hw, hout⟩ | ⟨m, hm, huser, hupper⟩)
  · obtain ⟨taken, rfl, hin⟩ := h.writes
    obtain ⟨f, hf, hwithin⟩ := hin w hw
    exact hout f (List.mem_append_left _ hf) hwithin
  · exact Nat.not_lt.mpr hupper (h.user m hm huser)

theorem Escapes.grow (h : Escapes frames s) (hgrow : LogsGrow s s') : Escapes frames s' := by
  rcases h with ⟨w, hw, hout⟩ | ⟨m, hm, hbad⟩
  · exact .inl ⟨w, hgrow.1 hw, hout⟩
  · exact .inr ⟨m, hgrow.2 hm, hbad⟩

/-! ## The records -/

theorem LogsGrow.refl (s : PhysMem) : LogsGrow s s := ⟨fun _ h => h, fun _ h => h⟩

theorem LogsGrow.trans (h : LogsGrow s s') (h' : LogsGrow s' s'') : LogsGrow s s'' :=
  ⟨fun _ hw => h'.1 (h.1 hw), fun _ hm => h'.2 (h.2 hm)⟩

instance : IsPreorder PhysMem LogsGrow where
  refl := LogsGrow.refl
  trans _ _ _ := LogsGrow.trans

theorem grows_of_append {writes : List Span} {mapped : List (Nat × Flags)}
    (hw : s'.writes = s.writes ++ writes) (hm : s'.mapped = s.mapped ++ mapped) : LogsGrow s s' :=
  ⟨fun _ h => hw ▸ List.mem_append_left _ h, fun _ h => hm ▸ List.mem_append_left _ h⟩

theorem along_allocateFrame : Along LogsGrow allocateFrame := by
  intro s
  rw [ends_allocateFrame]
  exact ⟨fun _ => LogsGrow.refl s, fun _ _ _ => LogsGrow.refl s⟩

theorem along_mapTo {page : Nat} {frame : Frame} {flags : Flags} :
    Along LogsGrow (mapTo c pml4 page frame flags) := by
  intro s
  unfold Ends mapTo
  cases flags.isHuge with
  | true => exact LogsGrow.refl s
  | false => exact grows_of_append rfl rfl

theorem along_expectOk (r : Except MapToError Unit) : Along LogsGrow (expectOk r) := by
  intro s
  rw [ends_expectOk]
  exact ⟨fun _ => LogsGrow.refl s, fun _ _ => LogsGrow.refl s⟩

theorem along_virtAddr (a : Nat) : Along LogsGrow (virtAddr a) :=
  .bind (along_ensure _) fun _ => along_pure _

theorem along_addUsize (a b : Nat) : Along LogsGrow (addUsize a b) :=
  .bind (along_ensure _) fun _ => along_pure _

theorem along_mapUserPages {flags : Flags} {count : Nat} :
    ∀ {page : Nat}, Along LogsGrow (mapUserPages c pml4 flags count page) := by
  induction count with
  | zero => exact along_pure ()
  | succ count ih =>
    intro page
    refine .bind (along_ensure _) fun _ => ?_
    refine .bind along_get fun s => ?_
    rcases c.translateAddr s.ram pml4 (page * 4096) with _ | phys
    · refine .bind along_allocateFrame fun o => ?_
      refine .bind (along_expect o) fun frame => ?_
      refine .bind along_mapTo fun r => ?_
      exact .bind (along_expectOk r) fun _ => ih
    · exact ih

theorem along_mapUserRegion {virtStart size : Nat} {flags : Flags} :
    Along LogsGrow (mapUserRegion c pml4 virtStart size flags) := by
  refine .bind (along_virtAddr _) fun a => ?_
  refine .bind ?_ fun last => ?_
  · exact .bind (along_ensure _) fun _ => along_virtAddr _
  refine .bind along_mapUserPages fun _ => ?_
  refine .bind along_get fun s => ?_
  exact along_modify fun s => grows_of_append rfl (List.append_nil _).symm

theorem along_writeBytes {phys : Nat} {bytes : List UInt8} : Along LogsGrow (writeBytes phys bytes) :=
  along_modify fun _ => grows_of_append rfl (List.append_nil _).symm

theorem along_readSlice {fileOffset offset n : Nat} :
    Along LogsGrow (readSlice data fileOffset offset n) := by
  refine .bind (along_addUsize _ _) fun start => ?_
  refine .bind (along_ensure _) fun _ => ?_
  exact .bind (along_modify fun s => LogsGrow.refl s) fun _ => along_pure _

theorem along_fillRange {virtStart stop : Nat} {source : Nat → Nat → PanicM PhysMem (List UInt8)}
    (hsource : ∀ offset n, Along LogsGrow (source offset n)) {fuel : Nat} :
    ∀ {offset : Nat}, Along LogsGrow (fillRange c pml4 virtStart stop source fuel offset) := by
  induction fuel with
  | zero => exact along_pure _
  | succ fuel ih =>
    intro offset
    unfold fillRange
    by_cases hlt : offset < stop
    · rw [if_pos hlt]
      refine .bind (along_virtAddr _) fun va => ?_
      refine .bind along_get fun s => ?_
      refine .bind (along_expect _) fun phys => ?_
      refine .bind (hsource _ _) fun bytes => ?_
      refine .bind along_writeBytes fun _ => ?_
      exact .bind (along_addUsize _ _) fun _ => ih
    · rw [if_neg hlt]
      exact along_pure _

theorem along_zeroBss {offset : Nat} : Along LogsGrow (zeroBss c pml4 ph offset) :=
  along_fillRange fun _ _ => along_pure _

theorem along_loadSegment : Along LogsGrow (loadSegment c pml4 data ph) := by
  refine .bind (along_virtAddr _) fun _ => ?_
  refine .bind along_mapUserRegion fun _ => ?_
  refine .bind (along_fillRange fun _ _ => along_readSlice) fun _ => ?_
  exact .bind along_zeroBss fun _ => along_pure _

theorem along_loadAll {phs : List ProgramHeader} : Along LogsGrow (loadAll c pml4 data phs) := by
  induction phs with
  | nil => exact along_pure ()
  | cons ph phs ih => exact .bind along_loadSegment fun _ => ih

/-- Once something has escaped, that stays so. -/
theorem Escapes.along {α : Type} {x : PanicM PhysMem α} (h : Escapes frames s)
    (hx : Along LogsGrow x) : Ends x s (fun _ s' => Escapes frames s') (fun _ => True) :=
  (hx s).mono (fun _ _ hgrow => Escapes.grow h hgrow) fun _ _ => trivial

/-! ## A segment that is not low -/

/-- The loop over the pages does not get across the end of the lower half, and it has mapped a page or
done nothing. -/
theorem mapUserPages_maps {flags : Flags} {count : Nat} : ∀ {page : Nat} {s : PhysMem},
    Ends (mapUserPages c pml4 flags count page) s
      (fun _ s' => (∀ n, n < count → page + n ≠ 2 ^ 35 - 1) ∧
        (s' = s ∨ ∃ n, n < count ∧ (page + n, flags) ∈ s'.mapped))
      (fun _ => True) := by
  induction count with
  | zero => exact fun {page s} => ⟨fun n hn => absurd hn (Nat.not_lt_zero n), .inl rfl⟩
  | succ count ih =>
    intro page s
    unfold mapUserPages
    rw [ends_bind, ends_nextPage]
    refine ⟨fun hnext => ?_, fun _ => trivial⟩
    have hpage : page ≠ 2 ^ 35 - 1 := by
      rintro rfl
      revert hnext
      decide
    have hpages : (∀ n, n < count → page + 1 + n ≠ 2 ^ 35 - 1) →
        ∀ n, n < count + 1 → page + n ≠ 2 ^ 35 - 1 := by
      intro h n hn
      cases n with
      | zero => exact hpage
      | succ n =>
        have := h n (by omega)
        omega
    rw [ends_bind, ends_get]
    rcases c.translateAddr s.ram pml4 (page * 4096) with _ | phys
    · show Ends (allocateFrame >>= _) _ _ _
      rw [ends_expect_allocateFrame]
      refine ⟨fun _ => trivial, fun frame frames _ => ?_⟩
      rw [ends_bind]
      unfold Ends mapTo
      rcases flags.isHuge with _ | _
      · rw [if_neg Bool.false_ne_true]
        show Ends (expectOk _ >>= _) _ _ _
        rw [ends_bind, ends_expectOk]
        refine ⟨fun hok => ?_, fun _ _ => trivial⟩
        refine (Ends.and ih (along_mapUserPages _)).mono ?_ fun _ _ => trivial
        rintro _ s' ⟨⟨hrest, -⟩, hgrow⟩
        refine ⟨hpages hrest, .inr ⟨0, Nat.succ_pos count, hgrow.2 ?_⟩⟩
        show (page, flags) ∈ s.mapped ++ mapLog page flags _
        rw [hok]
        exact List.mem_append_right _ List.mem_cons_self
      · trivial
    · refine ih.mono ?_ fun _ _ => trivial
      rintro _ s' ⟨hrest, hdone⟩
      refine ⟨hpages hrest, ?_⟩
      rcases hdone with rfl | ⟨n, hn, hmem⟩
      · exact .inl rfl
      · refine .inr ⟨n + 1, by omega, ?_⟩
        rwa [Nat.add_comm n 1, ← Nat.add_assoc]

/-- An entry of the PML4 becomes accessible from ring 3. -/
def userEntry (pml4 : Frame) (i : Fin 512) (s : PhysMem) : PhysMem :=
  { s with
    ram := s.ram.set pml4 i { s.ram pml4 i with flags := (s.ram pml4 i).flags.union .user }
    writes := s.writes ++ [entrySpan pml4 i] }

/-- A region that is not in the lower half is in the upper one. Either a page of it is mapped, or only the
entry of the PML4 gets a flag. -/
theorem mapUserRegion_high (frames : List Frame) {virtStart size : Nat} {extra : Flags}
    (hstart : canonical virtStart = true) (hsize : 0 < size) (hhigh : 2 ^ 47 < virtStart + size) :
    Ends (mapUserRegion c pml4 virtStart size extra) s
      (fun _ s' => 2 ^ 64 - 2 ^ 47 ≤ virtStart ∧
        (Escapes frames s' ∨ s' = userEntry pml4 (index 3 (virtStart / 4096)) s))
      (fun _ => True) := by
  unfold mapUserRegion addAddr
  rw [ends_bind, ends_virtAddr]
  refine ⟨fun hend => ?_, fun _ => trivial⟩
  rw [ends_bind, ends_subAddr]
  refine ⟨fun hlast => ?_, fun _ => trivial⟩
  rw [ends_bind]
  refine mapUserPages_maps.mono ?_ fun _ _ => trivial
  rintro _ s' ⟨hpages, hdone⟩
  rw [canonical_iff] at hstart hend hlast
  -- otherwise the loop would have come to the last page of the lower half
  have hupper : 2 ^ 64 - 2 ^ 47 ≤ virtStart := by
    rcases hstart with hstart | hstart
    · have := hpages (2 ^ 35 - 1 - virtStart / 4096) (by omega)
      omega
    · exact hstart.1
  rw [ends_bind, ends_get, ends_setEntry]
  refine ⟨hupper, ?_⟩
  rcases hdone with rfl | ⟨n, hn, hmem⟩
  · exact .inr rfl
  · refine .inl (.inr ⟨_, hmem, ?_, ?_⟩)
    · show ((Flags.present.union .user).union extra).isUser = true
      rw [Flags.isUser_union]
      rfl
    · show 256 ≤ (virtStart / 4096 + n) / 512 ^ 3 % 512
      omega

/-- The first chunk of a loop is written where the first address is mapped. -/
theorem fillRange_escapes {virtStart stop len fuel offset : Nat} {content : Nat → UInt8}
    {source : Nat → Nat → PanicM PhysMem (List UInt8)} (hsource : Supplies stop len content source)
    (halong : ∀ offset n, Along LogsGrow (source offset n)) (hlt : offset < stop) (hfuel : 0 < fuel)
    (hout : ∀ phys, c.translateAddr s.ram pml4 (virtStart + offset) = some phys →
      ∀ n, 0 < n → ∀ f ∈ frames, ¬ Span.Within ⟨phys, n⟩ (frameSpan f)) :
    Ends (fillRange c pml4 virtStart stop source fuel offset) s (fun _ s' => Escapes frames s')
      (fun _ => True) := by
  obtain ⟨fuel, rfl⟩ := Nat.exists_eq_succ_of_ne_zero (Nat.ne_of_gt hfuel)
  refine ends_fillRange_round hlt (fun _ => trivial) (fun _ => trivial) fun phys n hphys hpos hstop _ => ?_
  refine (hsource offset n s hpos hstop).mono ?_ fun _ _ => trivial
  rintro chunk _ ⟨hlen, -, rs, rfl, -⟩
  refine Escapes.along (.inl ⟨⟨phys, chunk.length⟩, ?_, ?_⟩) ?_
  · exact List.mem_append_right _ List.mem_cons_self
  · exact hout phys hphys _ (hlen ▸ hpos)
  · exact .bind (along_addUsize _ _) fun _ => along_fillRange halong

theorem walkFrames_kernel {page : Nat} {ram : Ram} (hk : KernelTables cr3 ram frames)
    (hupper : 256 ≤ (index 3 page).val) (hp : (ram cr3 (index 3 page)).flags.isPresent = true) :
    walkFrames ram 3 cr3 page = (ram cr3 (index 3 page)).frame ::
      walkFrames ram 2 (ram cr3 (index 3 page)).frame page := by
  rw [walkFrames, if_pos hp, hk.plain _ hupper, if_neg Bool.false_ne_true]

/-- The program `pml4` has the tables of the kernel below the entry for a page, which may have got other flags. -/
structure SharesTables (cr3 pml4 : Frame) (frames : List Frame) (ram ram' : Ram) (page : Nat) (flags : Flags) :
    Prop where
  same : ∀ f, f ∉ frames → ram' f = ram f
  entry : ram' pml4 (index 3 page) = ⟨flags, (ram cr3 (index 3 page)).frame⟩
  present : flags.isPresent = (ram cr3 (index 3 page)).flags.isPresent
  plain : flags.isHuge = false

variable {page : Nat} {flags : Flags} {tr : Translation} {ram ram' : Ram}

/-- A page of the kernel is mapped to a frame that is not one of the allocator. -/
theorem walk_kernel (hk : KernelTables cr3 ram frames) (hupper : 256 ≤ (index 3 page).val)
    (hs : SharesTables cr3 pml4 frames ram ram' page flags) (hw : walk ram' 3 pml4 page = some tr) :
    tr.frame ∉ frames := by
  refine hk.unmapped page hupper tr.frame ?_
  have hframes := hk.unmapped page hupper
  have hp : flags.isPresent = true := by
    have := (Option.ite_none_right_eq_some.mp hw).1
    rwa [hs.entry] at this
  rw [walk_through hs.entry hp hs.plain] at hw
  obtain ⟨tr', hw', rfl⟩ := Option.map_eq_some_iff.mp hw
  rw [walkFrames_kernel hk hupper (hs.present ▸ hp)] at hframes ⊢
  have hwalk := walk_of_walkFrames (hs.same _ (hframes _ List.mem_cons_self)) fun f hf =>
    hs.same f (hframes f (List.mem_cons_of_mem _ hf))
  have hmem := walk_frame_mem (hwalk.symm.trans hw')
  exact List.mem_cons_of_mem _ hmem

theorem regular_kernel (hk : KernelTables cr3 ram frames) (hupper : 256 ≤ (index 3 page).val)
    (hs : SharesTables cr3 pml4 frames ram ram' page flags) : Regular ram' 3 pml4 page := by
  intro hp
  rw [hs.entry] at hp ⊢
  have hp' := hs.present.symm.trans hp
  have hframes := hk.unmapped page hupper
  rw [walkFrames_kernel hk hupper hp'] at hframes
  have hbelow := hk.regular page hupper hp'
  rw [hk.plain _ hupper, if_neg Bool.false_ne_true] at hbelow
  rw [hs.plain, if_neg Bool.false_ne_true]
  exact hbelow.of_walkFrames (hs.same _ (hframes _ List.mem_cons_self)) fun f hf =>
    hs.same f (hframes f (List.mem_cons_of_mem _ hf))

/-- What the loader has changed so far is in frames of the allocator, and it has the upper half of the
kernel. -/
theorem Loading.kernel (hroot : cr3 ∉ s.frames)
    (h : Loading cr3 pml4 frames s kind s') : (∀ f, f ∉ s.frames → s'.ram f = s.ram f) ∧
      ∀ i : Fin 512, 256 ≤ i.val → s'.ram pml4 i = s.ram cr3 i := by
  have hmem : pml4 ∈ s.frames := h.1 ▸ List.mem_cons_self
  constructor
  · intro f hf
    have hne : f ≠ pml4 := by
      rintro rfl
      exact hf hmem
    have hother : kind f = .other := by
      by_contra hused
      exact hf (Loading.taken h hused)
    rw [h.2.apart f hother]
    exact Function.update_of_ne hne _ _
  · intro i hi
    have hcr3 : cr3 ≠ pml4 := by
      rintro rfl
      exact hroot hmem
    rw [h.2.kept pml4 i rootOnly_self fun hslot => Nat.not_lt.mpr hi hslot.2]
    show s.ram.setTable pml4 (newPml4 s.ram cr3 pml4) pml4 i = s.ram cr3 i
    unfold Ram.setTable newPml4
    rw [Function.update_self, if_pos ⟨hi, hcr3⟩]

/-- So it is after the loader has made the entry one of the user's. -/
theorem sharesTables_userEntry (hk : KernelTables cr3 s.ram s.frames) (hloading : Loading cr3 pml4 frames s kind s')
    (hupper : 256 ≤ (index 3 page).val) :
    SharesTables cr3 pml4 s.frames s.ram (userEntry pml4 (index 3 page) s').ram page
      ((s.ram cr3 (index 3 page)).flags.union .user) := by
  obtain ⟨hsame, hshared⟩ := Loading.kernel hk.root hloading
  have hroot : pml4 ∈ s.frames := hloading.1 ▸ List.mem_cons_self
  constructor
  case same =>
    intro g hg
    rw [← hsame g hg]
    refine Ram.set_of_frame_ne ?_ _ _
    rintro rfl
    exact hg hroot
  case entry =>
    rw [← hshared _ hupper]
    exact Ram.set_self ..
  case present =>
    rw [Flags.isPresent_union]
    exact Bool.or_false _
  case plain =>
    rw [Flags.isHuge_union, hk.plain _ hupper]
    rfl

/-- No address of a page of the upper half leads into a frame of the allocator. -/
theorem translateAddr_kernel (hc : c.Lawful) (hk : KernelTables cr3 s.ram s.frames)
    (hloading : Loading cr3 pml4 frames s kind s') {va phys n : Nat}
    (hva : 256 ≤ (index 3 (va / 4096)).val)
    (hphys : c.translateAddr (userEntry pml4 (index 3 (va / 4096)) s').ram pml4 va = some phys)
    (hn : 0 < n) {f : Frame} (hf : f ∈ s.frames) : ¬ Span.Within ⟨phys, n⟩ (frameSpan f) := by
  have hshares := sharesTables_userEntry hk hloading hva
  rw [hc.translateAddr_eq _ _ _ (regular_kernel hk hva hshares)] at hphys
  obtain ⟨tr, hw, rfl⟩ := Option.map_eq_some_iff.mp hphys
  rintro ⟨hstart, hend⟩
  refine walk_kernel hk hva hshares hw ?_
  have heq : tr.frame = f := by
    refine BitVec.eq_of_toNat_eq ?_
    unfold frameSpan at hstart hend
    dsimp only at hstart hend
    omega
  rwa [heq]

theorem loadSegment_escapes (hc : c.Lawful) (hk : KernelTables cr3 s.ram s.frames)
    (hloading : Loading cr3 pml4 frames s kind s') (hph : Loadable data ph)
    (hhigh : 2 ^ 47 < ph.virtualAddress + ph.memorySize) :
    Ends (loadSegment c pml4 data ph) s' (fun _ s'' => Escapes s.frames s'') (fun _ => True) := by
  have hmem := hph.nonempty
  have hbss : ∀ offset, Along LogsGrow (zeroBss c pml4 ph offset >>= fun _ => pure ()) := fun _ =>
    .bind along_zeroBss fun _ => along_pure _
  unfold loadSegment
  rw [ends_bind, ends_virtAddr]
  refine ⟨fun hstart => ?_, fun _ => trivial⟩
  rw [ends_bind]
  refine (mapUserRegion_high s.frames hstart hmem hhigh).mono ?_ fun _ _ => trivial
  rintro _ s₁ ⟨hupper, hescapes | rfl⟩
  · exact Escapes.along hescapes (.bind (along_fillRange fun _ _ => along_readSlice) hbss)
  · have hindex : 256 ≤ (index 3 (ph.virtualAddress / 4096)).val := by
      refine index_upper hupper ?_
      rw [canonical_iff] at hstart
      omega
    have hout : ∀ phys, c.translateAddr
        (userEntry pml4 (index 3 (ph.virtualAddress / 4096)) s').ram pml4 (ph.virtualAddress + 0) =
          some phys → ∀ n, 0 < n → ∀ f ∈ s.frames, ¬ Span.Within ⟨phys, n⟩ (frameSpan f) :=
      fun phys hphys n hn f hf => translateAddr_kernel hc hk hloading hindex hphys hn hf
    unfold copyFile
    rw [ends_bind]
    -- the first byte is one of the file or a zero
    rcases Nat.eq_zero_or_pos ph.fileSize with hzero | hfile
    · rw [hzero]
      show Ends (zeroBss c pml4 ph 0 >>= _) _ _ _
      unfold zeroBss
      rw [ends_bind]
      exact fillRange_escapes (supplies_zeros ph.memorySize data.length)
        (fun _ _ => along_pure _) hmem hmem hout
    · refine (fillRange_escapes (supplies_readSlice hph.file) (fun _ _ => along_readSlice) hfile hfile
        hout).mono ?_ fun _ _ => trivial
      exact fun offset s₂ h => Escapes.along h (hbss offset)

theorem loadAll_escapes (hc : c.Lawful) (hk : KernelTables cr3 s.ram s.frames)
    {phs : List ProgramHeader} : ∀ {kind : Frame → Kind} {s' : PhysMem},
      Loading cr3 pml4 frames s kind s' → (∀ ph ∈ phs, Loadable data ph) →
      (∃ ph ∈ phs, 2 ^ 47 < ph.virtualAddress + ph.memorySize) →
      Ends (loadAll c pml4 data phs) s' (fun _ s'' => Escapes s.frames s'') (fun _ => True) := by
  induction phs with
  | nil => exact fun _ _ ⟨ph, hph, _⟩ => nomatch hph
  | cons ph phs ih =>
    rintro kind s' hloading hloadable hhigh
    have hph := hloadable ph List.mem_cons_self
    unfold loadAll
    rw [ends_bind]
    by_cases hlow : ph.virtualAddress + ph.memorySize ≤ 2 ^ 47
    · obtain ⟨hframes, hgrows⟩ := id hloading
      refine (loadSegment_ends hc hgrows.shape hgrows.free (Loading.root hloading) hgrows.left.subset hph hlow).mono ?_
        fun _ _ => trivial
      rintro _ s₁ ⟨kind₁, hfills⟩
      refine ih ⟨hframes, Grows.trans hgrows hfills.toGrows⟩
        (fun q hq => hloadable q (List.mem_cons_of_mem _ hq)) ?_
      obtain ⟨q, hq, hqhigh⟩ := hhigh
      rcases List.mem_cons.mp hq with rfl | hq
      · omega
      · exact ⟨q, hq, hqhigh⟩
    · refine (loadSegment_escapes hc hk hloading hph (by omega)).mono ?_ fun _ _ => trivial
      exact fun _ s₁ h => Escapes.along h along_loadAll

/-- What is written is in frames in use, and these were allocated. -/
theorem Loading.isolated {ram : Ram} {all : List Frame}
    (h : Loading cr3 pml4 frames ⟨ram, all, [], [], []⟩ kind s') : LoadIsolated all s' := by
  have hloading := h
  obtain ⟨hall, h⟩ := h
  obtain ⟨used, hused⟩ := h.left
  obtain ⟨ws, hws, hin⟩ := h.written
  obtain ⟨ms, hms, hslots⟩ := h.mapped
  constructor
  case writes =>
    refine ⟨pml4 :: used, ?_, fun w hw => ?_⟩
    · rw [List.cons_append, hused]
      exact hall
    · rw [hws] at hw
      rcases List.mem_append.mp hw with hw | hw
      · obtain rfl : w = frameSpan pml4 := by
          rcases List.mem_cons.mp hw with hw | hw
          · exact hw
          · exact List.mem_singleton.mp hw
        exact ⟨pml4, List.mem_cons_self, Span.Within.refl _⟩
      · obtain ⟨f, hf, hwithin⟩ := hin w hw
        refine ⟨f, ?_, hwithin⟩
        have hframes : f ∈ pml4 :: used ++ s'.frames := by
          rw [List.cons_append, hused]
          exact hall ▸ Loading.taken hloading hf
        rcases List.mem_append.mp hframes with hf' | hf'
        · exact hf'
        · exact absurd (h.free.other f hf') hf
  case user =>
    intro m hm _
    rw [hms] at hm
    exact hslots m hm

end IsolationLemmas

open IsolationLemmas

/-- If all segments lie in the lower half, `new_from_elf` stays isolated, also when it panics. If the
frames of the allocator are in no use and it returns, it is isolated only then. -/
theorem loader_isolated_iff {c : Mapper} (hc : c.Lawful) (data : List UInt8) (cr3 : Frame) (ram : Ram)
    {frames : List Frame} (hnodup : frames.Nodup) :
    (LowSegments data →
      LoadIsolated frames (Process.newFromElf c cr3 data ⟨ram, frames, [], [], []⟩).2) ∧
    (KernelTables cr3 ram frames → ∀ r s',
      (Process.newFromElf c cr3 data).result ⟨ram, frames, [], [], []⟩ = some (r, s') →
        (LoadIsolated frames s' ↔ LowSegments data)) := by
  have hlow : LowSegments data →
      LoadIsolated frames (Process.newFromElf c cr3 data ⟨ram, frames, [], [], []⟩).2 := by
    intro hlow
    have hnothing : LoadIsolated frames ⟨ram, frames, [], [], []⟩ :=
      ⟨⟨[], rfl, fun w hw => nomatch hw⟩, fun m hm => nomatch hm⟩
    unfold LowSegments elfSegments at hlow
    rcases hheader : parseHeader data with e | header <;> rw [hheader] at hlow
    · unfold Process.newFromElf
      rw [hheader]
      exact hnothing
    · refine Ends.always ((newFromElf_ends hc hnodup hheader hlow).mono ?_ ?_)
      · rintro r s' ⟨⟨pml4, frames', kind, h⟩, -⟩
        exact Loading.isolated h
      · rintro s' (rfl | ⟨pml4, frames', kind, h⟩)
        · exact hnothing
        · exact Loading.isolated h
  refine ⟨hlow, fun hk r s' hload => ⟨fun hiso => ?_, fun h => ?_⟩⟩
  · by_contra hhigh
    unfold LowSegments elfSegments at hhigh
    rcases hheader : parseHeader data with e | header <;> rw [hheader] at hhigh
    · exact hhigh fun ph hph => nomatch hph
    · simp only [not_forall, Nat.not_le] at hhigh
      obtain ⟨ph, hph, hhigh⟩ := hhigh
      have hescapes : Ends (Process.newFromElf c cr3 data) ⟨ram, frames, [], [], []⟩
          (fun _ s' => Escapes frames s') (fun _ => True) := by
        refine ends_newFromElf hc hnodup hheader trivial (fun _ _ _ _ _ => trivial)
          fun pml4 frames' kind₁ s₁ hframes _ hstack => ?_
        refine loadAll_escapes hc hk ⟨hframes, hstack.toGrows⟩ (fun q hq => ?_) ⟨ph, hph, hhigh⟩
        obtain ⟨i, -, -, hi⟩ := segmentsFrom_mem hq
        exact loadable_of_segmentAt hi
      exact LoadIsolated.not_escapes hiso (hescapes.returns hload)
  · have hend := hlow h
    rwa [result_eq_some.mp hload] at hend

theorem emptyMemory_tables : KernelTables 1 emptyMemory.ram emptyMemory.frames where
  root := by decide +kernel
  plain i _ := show Entry.unused.flags.isHuge = false by decide
  unmapped page _ f hf := by
    have hnil : walkFrames emptyMemory.ram 3 1 page = [] :=
      if_neg (show ¬ Entry.unused.flags.isPresent = true by decide)
    rw [hnil] at hf
    cases hf
  regular page _ hp := absurd hp (show ¬ Entry.unused.flags.isPresent = true by decide)

theorem loader_isolated_iff_meeting : ∃ r s',
    (Process.newFromElf plainMapper 1 meetingElf).result emptyMemory = some (r, s') ∧
    (LoadIsolated emptyMemory.frames s' ↔ LowSegments meetingElf) := by
  have hok : ((Process.newFromElf plainMapper 1 meetingElf).result emptyMemory).isSome = true := by
    decide +kernel
  obtain ⟨⟨r, s'⟩, hload⟩ := Option.isSome_iff_exists.mp hok
  refine ⟨r, s', hload, (loader_isolated_iff plainMapper_lawful meetingElf 1 emptyMemory.ram
    (by decide +kernel)).2 emptyMemory_tables r s' hload⟩

/-- The page tables of a kernel that has a page at the start of its heap, in frame 5. -/
def heapTables : Ram := fun f i =>
  if f = 1 ∧ i = 320 then ⟨kernelFlags, 2⟩
  else if f = 2 ∧ i = 0 then ⟨kernelFlags, 3⟩
  else if f = 3 ∧ i = 0 then ⟨kernelFlags, 4⟩
  else if f = 4 ∧ i = 0 then ⟨kernelFlags, 5⟩
  else .unused

/-- An image with one segment, of three bytes at the start of that heap. -/
def heapElf : List UInt8 :=
  programElf 0x400000 [⟨1, 6, 120, 0xFFFFA00000000000, 0, 3, 3, 4096⟩] [11, 12, 13]

/-- The load succeeds, and it has written to frame 5. -/
theorem kernel_heap_overwritten : ∃ process s',
    (Process.newFromElf plainMapper 1 heapElf).result ⟨heapTables, emptyMemory.frames, [], [], []⟩ =
      some (.ok process, s') ∧
    ⟨5 * 4096, 3⟩ ∈ s'.writes ∧ ¬ LoadIsolated emptyMemory.frames s' := by
  have hrun : ((Process.newFromElf plainMapper 1 heapElf).result
      ⟨heapTables, emptyMemory.frames, [], [], []⟩).any
        (loadedWith fun _ s => decide (⟨5 * 4096, 3⟩ ∈ s.writes)) = true := by decide +kernel
  have hframes : (emptyMemory.frames.all fun f => !decide (Span.Within ⟨5 * 4096, 3⟩ (frameSpan f))) =
      true := by decide +kernel
  obtain ⟨process, s', hload, hwrite⟩ := exists_loaded hrun
  refine ⟨process, s', hload, of_decide_eq_true hwrite, fun hiso => ?_⟩
  refine LoadIsolated.not_escapes hiso (.inl ⟨_, of_decide_eq_true hwrite, fun f hf => ?_⟩)
  have hf' := List.all_eq_true.mp hframes f hf
  rwa [Bool.not_eq_true', decide_eq_false_iff_not] at hf'

end Turnix
