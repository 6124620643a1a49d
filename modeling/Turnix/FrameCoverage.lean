import Turnix.FrameAllocator

/-!
# Which frames come out

The allocator has one bump pointer and takes the first descriptor of the list that reaches above it. The
calls up to the first `None` return every usable frame above the low megabyte exactly if the usable
descriptors are listed in ascending order: `frames_complete_iff`. A descriptor that is listed after a higher
one is skipped for good, because a frame of it would need the pointer below the higher one, and then the
higher one is taken first.
-/

namespace Turnix

open Lib

/-- The end of the memory of a descriptor. -/
def BootMemoryDescriptor.stop (d : BootMemoryDescriptor) : Nat := d.physStart + d.pageCount * pageSize

/-- No address is in both. -/
def BootMemoryDescriptor.Disjoint (d e : BootMemoryDescriptor) : Prop :=
  ∀ addr, ¬ (d.physStart ≤ addr ∧ addr < d.stop ∧ e.physStart ≤ addr ∧ addr < e.stop)

/-- A usable descriptor with a frame at or above `addr`. -/
def BootMemoryDescriptor.Offers (addr : Nat) (d : BootMemoryDescriptor) : Prop :=
  d.isUsable = true ∧ max addr d.physStart < d.stop

instance (addr : Nat) (d : BootMemoryDescriptor) : Decidable (d.Offers addr) :=
  inferInstanceAs (Decidable (_ ∧ _))

/-- Those that have memory to give away above the low megabyte are listed in ascending order. -/
def BootMemoryMap.Ascending (map : BootMemoryMap) : Prop :=
  (map.iter.filter fun d => d.Offers lowMemoryCutoff).Pairwise fun d e => d.stop ≤ e.physStart

instance (map : BootMemoryMap) : Decidable map.Ascending :=
  inferInstanceAs (Decidable (List.Pairwise _ _))

/-- The calls up to the first `None` return exactly the usable frames above the low megabyte. -/
def FramesComplete (map : BootMemoryMap) : Prop :=
  ∃ count frames a, (FrameAllocator.new map).allocateFrames count = .ok (frames, a) ∧
    frames.length = count ∧ a.allocatePhysicalFrame = .ok (none, a) ∧
    ∀ f : PhysFrame, f ∈ frames ↔
      pageSize ∣ f.startAddress ∧ lowMemoryCutoff ≤ f.startAddress ∧ f.Usable map.iter

namespace FrameLemmas

variable {map : BootMemoryMap} {next : Nat} {ds : List BootMemoryDescriptor}

/-- `align_up` leaves an aligned address alone. -/
theorem alignUp_aligned {value : Nat} (h : pageSize ∣ value) :
    FrameAllocator.alignUp value pageSize = value := by
  unfold FrameAllocator.alignUp
  rw [if_neg (by decide)]
  by_cases hfits : value + 4095 < 2 ^ 64
  · have hadd : checkedAdd value (pageSize - 1) = some (value + 4095) :=
      checkedAdd_eq_some.mpr ⟨hfits, rfl⟩
    rw [hadd]
    show (value + 4095) &&& (2 ^ 64 - 2 ^ 12) = value
    rw [land_high_mask (by decide) hfits]
    unfold pageSize at h
    omega
  · have hadd : checkedAdd value (pageSize - 1) = none := if_neg hfits
    rw [hadd]
    rfl

theorem dvd_max {d : BootMemoryDescriptor} (hnext : pageSize ∣ next) (hsound : d.Sound) :
    pageSize ∣ max next d.physStart := by
  rcases Nat.le_total next d.physStart with hle | hle
  · rw [Nat.max_eq_right hle]
    exact hsound.1
  · rw [Nat.max_eq_left hle]
    exact hnext

/-- What is offered is a whole frame. -/
theorem frame_of_offers {d : BootMemoryDescriptor} (hnext : pageSize ∣ next) (hsound : d.Sound)
    (h : d.Offers next) : max next d.physStart + pageSize ≤ d.stop := by
  have hdvd := dvd_max hnext hsound
  have hstop : pageSize ∣ d.stop := Nat.dvd_add hsound.1 (Nat.dvd_mul_left _ _)
  have hlt := h.2
  unfold pageSize at *
  omega

/-- From an aligned pointer, the loop takes a descriptor that offers something and skips any other. -/
theorem allocateLoop_cons {d : BootMemoryDescriptor} (hnext : pageSize ∣ next)
    (hd : d.isUsable = true → d.Sound) :
    allocateLoop next (d :: ds) =
      if d.Offers next then .ok (some ⟨max next d.physStart⟩, max next d.physStart + pageSize)
      else allocateLoop next ds := by
  rw [allocateLoop]
  by_cases husable : d.isUsable = true
  · have hsound := hd husable
    have hdvd := dvd_max hnext hsound
    rw [if_neg (by simp [husable]), usableRange_sound hsound]
    dsimp only
    rw [alignUp_aligned hdvd]
    change (if max next d.physStart < d.stop then _ else _) = _
    by_cases hlt : max next d.physStart < d.stop
    · have hoffers : d.Offers next := ⟨husable, hlt⟩
      have hadd : checkedAdd (max next d.physStart) pageSize =
          some (max next d.physStart + pageSize) :=
        checkedAdd_eq_some.mpr ⟨Nat.lt_of_le_of_lt (frame_of_offers hnext hsound hoffers) hsound.2, rfl⟩
      rw [if_pos hlt, if_pos hoffers, hadd]
    · rw [if_neg hlt, if_neg fun hoffers => hlt hoffers.2]
  · rw [if_pos (by simp [husable]), if_neg fun hoffers => husable hoffers.1]

/-- A call takes the first descriptor that offers something. -/
theorem allocateLoop_first (hnext : pageSize ∣ next) :
    ∀ {ds : List BootMemoryDescriptor}, (∀ d ∈ ds, d.isUsable = true → d.Sound) →
    (allocateLoop next ds = .ok (none, next) ∧ ∀ d ∈ ds, ¬ d.Offers next) ∨
    ∃ before d after, ds = before ++ d :: after ∧ (∀ e ∈ before, ¬ e.Offers next) ∧ d.Offers next ∧
      allocateLoop next ds =
        .ok (some ⟨max next d.physStart⟩, max next d.physStart + pageSize)
  | [], _ => .inl ⟨rfl, fun _ hd => absurd hd List.not_mem_nil⟩
  | d :: ds, hds => by
    rw [allocateLoop_cons hnext (hds d List.mem_cons_self)]
    by_cases hoffers : d.Offers next
    · rw [if_pos hoffers]
      exact .inr ⟨[], d, ds, rfl, fun _ he => absurd he List.not_mem_nil, hoffers, rfl⟩
    · rw [if_neg hoffers]
      rcases allocateLoop_first hnext fun e he => hds e (List.mem_cons_of_mem d he) with
        ⟨heq, hnone⟩ | ⟨before, e, after, rfl, hbefore, he, heq⟩
      · refine .inl ⟨heq, fun e he => ?_⟩
        rcases List.mem_cons.mp he with rfl | he
        · exact hoffers
        · exact hnone e he
      · refine .inr ⟨d :: before, e, after, rfl, fun e' he' => ?_, he, heq⟩
        rcases List.mem_cons.mp he' with rfl | he'
        · exact hoffers
        · exact hbefore e' he'

/-- The descriptor of a frame at or above the pointer offers something. -/
theorem offers_of_usable {f : PhysFrame} (h : f.Usable ds) (hle : next ≤ f.startAddress) :
    ∃ d ∈ ds, d.Offers next ∧ d.physStart ≤ f.startAddress ∧ f.startAddress < d.stop := by
  obtain ⟨d, hd, husable, hstart, hend⟩ := h
  have hlt : f.startAddress < d.stop := by
    unfold BootMemoryDescriptor.stop pageSize at *
    omega
  exact ⟨d, hd, ⟨husable, by omega⟩, hstart, hlt⟩

/-- In an ascending map no usable frame lies between the pointer and the frame of the next call. -/
theorem least_of_ascending {before after : List BootMemoryDescriptor} {d : BootMemoryDescriptor}
    (hcut : lowMemoryCutoff ≤ next) (hasc : map.Ascending) (hmap : map.iter = before ++ d :: after)
    (hbefore : ∀ e ∈ before, ¬ e.Offers next) (hd : d.Offers next) {f : PhysFrame}
    (hf : f.Usable map.iter) (hle : next ≤ f.startAddress) :
    max next d.physStart ≤ f.startAddress := by
  obtain ⟨e, he, hoffers, hstart, hlt⟩ := offers_of_usable hf hle
  rw [hmap] at he
  rcases List.mem_append.mp he with he | he
  · exact absurd hoffers (hbefore e he)
  · rcases List.mem_cons.mp he with rfl | he
    · omega
    · -- `e` is listed later, so it lies higher
      have hlow : ∀ e' : BootMemoryDescriptor, e'.Offers next → e'.Offers lowMemoryCutoff :=
        fun e' he' => ⟨he'.1, by have := he'.2; omega⟩
      unfold BootMemoryMap.Ascending at hasc
      rw [hmap, List.filter_append, List.filter_cons_of_pos (by simpa using hlow d hd)] at hasc
      have hrel := (List.pairwise_cons.mp (List.pairwise_append.mp hasc).2.1).1 e
        (List.mem_filter.mpr ⟨he, by simpa using hlow e hoffers⟩)
      have := hd.2
      omega

theorem allocatePhysicalFrame_of_loop {frame : Option PhysFrame} {next' : Nat}
    (h : allocateLoop next map.iter = .ok (frame, next')) :
    FrameAllocator.allocatePhysicalFrame ⟨map, next⟩ = .ok (frame, ⟨map, next'⟩) := by
  unfold FrameAllocator.allocatePhysicalFrame
  dsimp only
  rw [h]
  rfl

/-- In an ascending map the calls from any aligned pointer on return every usable frame from there, and
then `None`. -/
theorem drain_of_ascending (hmap : ∀ d ∈ map.iter, d.Sound) (hasc : map.Ascending)
    (hnext : pageSize ∣ next) (hcut : lowMemoryCutoff ≤ next) :
    ∃ count frames a, FrameAllocator.allocateFrames ⟨map, next⟩ count = .ok (frames, a) ∧
      frames.length = count ∧ a.allocatePhysicalFrame = .ok (none, a) ∧
      ∀ f : PhysFrame, f ∈ frames ↔
        pageSize ∣ f.startAddress ∧ next ≤ f.startAddress ∧ f.Usable map.iter := by
  -- the pointer rises with every frame and stays below the end of the address space
  induction hroom : 2 ^ 64 - next using Nat.strong_induction_on generalizing next with
  | _ room ih =>
    subst hroom
    rcases allocateLoop_first hnext (fun d hd _ => hmap d hd) with ⟨heq, hnone⟩ |
      ⟨before, d, after, hsplit, hbefore, hd, heq⟩
    · refine ⟨0, [], _, rfl, rfl, allocatePhysicalFrame_of_loop heq, fun f => ?_⟩
      constructor
      · intro hf
        exact absurd hf List.not_mem_nil
      · rintro ⟨-, hle, husable⟩
        obtain ⟨d, hd, hoffers, -⟩ := offers_of_usable husable hle
        exact absurd hoffers (hnone d hd)
    · have hsound : d.Sound := hmap d (by rw [hsplit]; exact List.mem_append_cons_self)
      have hdvd := dvd_max hnext hsound
      have hframe := frame_of_offers hnext hsound hd
      have hend : d.stop < 2 ^ 64 := hsound.2
      have hpage : 0 < pageSize := by decide
      obtain ⟨count, frames, a, hframes, hlen, hlast, hall⟩ :=
        ih (2 ^ 64 - (max next d.physStart + pageSize)) (by omega)
          (Nat.dvd_add hdvd (Nat.dvd_refl _)) (by omega) rfl
      refine ⟨count + 1, ⟨max next d.physStart⟩ :: frames, a, ?_, by rw [List.length_cons, hlen], hlast,
        fun f => ?_⟩
      · rw [FrameAllocator.allocateFrames, allocatePhysicalFrame_of_loop heq]
        show (FrameAllocator.allocateFrames ⟨map, max next d.physStart + pageSize⟩ count >>= _) = _
        rw [hframes]
        rfl
      · rw [List.mem_cons, hall]
        constructor
        · rintro (rfl | ⟨hf, hle, husable⟩)
          · refine ⟨hdvd, Nat.le_max_left _ _, d, ?_, hd.1, Nat.le_max_right _ _, hframe⟩
            rw [hsplit]
            exact List.mem_append_cons_self
          · exact ⟨hf, by omega, husable⟩
        · rintro ⟨hf, hle, husable⟩
          have hleast := least_of_ascending hcut hasc hsplit hbefore hd husable hle
          rcases Nat.eq_or_lt_of_le hleast with heq | hlt
          · left
            rw [heq]
          · refine .inr ⟨hf, ?_, husable⟩
            unfold pageSize at *
            omega

/-- A frame of a descriptor that is listed after a higher one never comes out. -/
theorem skipped_of_listed_after {d e : BootMemoryDescriptor} (hmap : ∀ d ∈ map.iter, d.Sound)
    (hdisjoint : map.iter.Pairwise BootMemoryDescriptor.Disjoint) (horder : [d, e].Sublist map.iter)
    (husable : d.isUsable = true) (hpos : d.physStart < d.stop) (hbelow : e.stop ≤ d.physStart) :
    ∀ {count next : Nat} {frames : List PhysFrame} {a : FrameAllocator}, pageSize ∣ next →
      FrameAllocator.allocateFrames ⟨map, next⟩ count = .ok (frames, a) →
      ∀ f ∈ frames, e.physStart ≤ f.startAddress → e.stop ≤ f.startAddress := by
  intro count
  induction count with
  | zero =>
    intro next frames a _ h f hf
    cases h
    exact absurd hf List.not_mem_nil
  | succ count ih =>
    intro next frames a hnext h f hf hstart
    rw [FrameAllocator.allocateFrames] at h
    obtain ⟨⟨frame, a₁⟩, hcall, h⟩ := bind_eq_ok.mp h
    obtain ⟨⟨rest, a₂⟩, hrest, h⟩ := bind_eq_ok.mp h
    cases h
    rcases allocateLoop_first hnext (fun d hd _ => hmap d hd) with ⟨heq, -⟩ |
      ⟨before, d', after, hsplit, hbefore, hd', heq⟩
    · rw [allocatePhysicalFrame_of_loop heq] at hcall
      cases hcall
      exact ih hnext hrest f hf hstart
    · rw [allocatePhysicalFrame_of_loop heq] at hcall
      cases hcall
      have hsound : d'.Sound := hmap d' (by rw [hsplit]; exact List.mem_append_cons_self)
      rcases List.mem_cons.mp hf with rfl | hf
      · by_contra hlt
        have hfirst : max next d'.physStart < d'.stop := hd'.2
        dsimp only at hstart hlt
        -- `d` offers something, so it is not before `d'`; then `e` is after it and not `d'` itself
        have hoffers : d.Offers next := ⟨husable, by omega⟩
        rw [hsplit] at horder hdisjoint
        obtain ⟨l, l', hl, hl1, hl2⟩ := List.sublist_append_iff.mp horder
        cases l with
        | nil =>
          rw [List.nil_append] at hl
          rw [← hl] at hl2
          have he : e ∈ after := List.singleton_sublist.mp hl2.tail
          have hdis := (List.pairwise_cons.mp (List.pairwise_append.mp hdisjoint).2.1).1 e he
          exact hdis (max next d'.physStart) ⟨Nat.le_max_right _ _, hfirst, hstart, by omega⟩
        | cons x l =>
          rw [List.cons_append] at hl
          obtain ⟨rfl, -⟩ := List.cons.inj hl
          exact hbefore d (hl1.subset List.mem_cons_self) hoffers
      · exact ih (Nat.dvd_add (dvd_max hnext hsound) (Nat.dvd_refl _)) hrest f hf hstart

end FrameLemmas

open FrameLemmas

/-- For a map of disjoint descriptors, the calls up to the first `None` return every usable frame above the
low megabyte exactly if the descriptors these frames lie in are listed in ascending order. -/
theorem frames_complete_iff (map : BootMemoryMap) (hmap : ∀ d ∈ map.iter, d.Sound)
    (hdisjoint : map.iter.Pairwise BootMemoryDescriptor.Disjoint) :
    FramesComplete map ↔ map.Ascending := by
  have hcut : pageSize ∣ lowMemoryCutoff := by decide
  constructor
  · rintro ⟨count, frames, a, hframes, -, -, hall⟩
    refine List.pairwise_iff_forall_sublist.mpr fun {d e} horder => ?_
    have hmem : ∀ x ∈ [d, e], x.Offers lowMemoryCutoff := fun x hx =>
      of_decide_eq_true (List.mem_filter.mp (horder.subset hx)).2
    have hd := hmem d List.mem_cons_self
    have he := hmem e (List.mem_cons_of_mem d List.mem_cons_self)
    have horder' : [d, e].Sublist map.iter := horder.trans List.filter_sublist
    by_contra hnot
    have hrel : d.Disjoint e := List.pairwise_iff_forall_sublist.mp hdisjoint horder'
    have hbelow : e.stop ≤ d.physStart := by
      have hlow := hrel d.physStart
      have hhigh := hrel e.physStart
      have := hd.2
      have := he.2
      omega
    -- the first frame of `e` above the low megabyte
    have hin : (⟨max lowMemoryCutoff e.physStart⟩ : PhysFrame) ∈ frames := by
      have hmem' : e ∈ map.iter := horder'.subset (List.mem_cons_of_mem d List.mem_cons_self)
      refine (hall _).mpr ⟨dvd_max hcut (hmap e hmem'), Nat.le_max_left _ _, e, hmem', he.1,
        Nat.le_max_right _ _, frame_of_offers hcut (hmap e hmem') he⟩
    have hskip := skipped_of_listed_after hmap hdisjoint horder' hd.1 (by have := hd.2; omega) hbelow
      hcut hframes _ hin (Nat.le_max_right _ _)
    exact absurd he.2 (Nat.not_lt.mpr hskip)
  · intro hasc
    exact drain_of_ascending hmap hasc hcut (Nat.le_refl _)

/-- A map of two usable descriptors, of one page each, with a reserved one between them. -/
def twoPages (first second : Nat) : BootMemoryMap where
  descriptors := some fun offset =>
    if offset = 0 then ⟨7, first, 1⟩ else if offset = 48 then ⟨2, 0x180000, 1⟩ else ⟨4, second, 1⟩
  mapSize := 144
  descSize := 48

theorem twoPages_iter (first second : Nat) :
    (twoPages first second).iter = [⟨7, first, 1⟩, ⟨2, 0x180000, 1⟩, ⟨4, second, 1⟩] := by
  have hcount : (twoPages first second).entryCount = 3 := by simp [BootMemoryMap.entryCount, twoPages]
  rw [BootMemoryMap.iter, hcount]
  simp only [BootMemoryMap.iterFrom, BootMemoryMap.get, hcount]
  simp [twoPages, checkedMul, descriptorSize]

theorem frames_complete_sample : FramesComplete (twoPages 0x100000 0x200000) := by
  refine (frames_complete_iff _ ?_ ?_).mpr ?_
  · intro d hd
    rw [twoPages_iter] at hd
    simp only [List.mem_cons, List.not_mem_nil, or_false] at hd
    rcases hd with rfl | rfl | rfl <;>
    · unfold BootMemoryDescriptor.Sound pageSize
      decide
  · rw [twoPages_iter]
    have hapart : List.Pairwise (fun d e : BootMemoryDescriptor =>
        d.stop ≤ e.physStart ∨ e.stop ≤ d.physStart)
        [⟨7, 0x100000, 1⟩, ⟨2, 0x180000, 1⟩, ⟨4, 0x200000, 1⟩] := by decide
    refine hapart.imp ?_
    rintro d e h addr ⟨hd, hd', he, he'⟩
    omega
  · unfold BootMemoryMap.Ascending
    rw [twoPages_iter]
    decide

/-- Listed the other way round, the frame at `0x100000` does not come out: the second call returns
`None`. -/
theorem frames_skipped_when_descending :
    ∃ a b, (FrameAllocator.new (twoPages 0x200000 0x100000)).allocatePhysicalFrame =
        .ok (some ⟨0x200000⟩, a) ∧
      a.allocatePhysicalFrame = .ok (none, b) ∧
      (⟨0x100000⟩ : PhysFrame).Usable (twoPages 0x200000 0x100000).iter := by
  refine ⟨⟨_, 0x201000⟩, ⟨_, 0x201000⟩, allocatePhysicalFrame_of_loop ?_,
    allocatePhysicalFrame_of_loop ?_, ⟨4, 0x100000, 1⟩, ?_⟩
  · rw [twoPages_iter]
    decide +kernel
  · rw [twoPages_iter]
    decide +kernel
  · rw [twoPages_iter]
    decide

end Turnix
