import Turnix.Paging

/-!
# Mapping a region

What `map_user_region` and `create_process_pml4` do to the page tables of all address spaces, at every
end of the call, a panic included (`Grows`): tables are only made from frames of the allocator, of the
PML4s that are in use only the entries of the region change, and every write goes to a frame in use.
-/

namespace Turnix

open Lib Lib.Paging PanicM

/-! ## Growing page tables -/

/-- What code does that maps pages through the entries `slots` of the PML4 `pml4`, with the frames of
`pool`. -/
structure Grows (cover : Frame → Fin 512 → Prop) (pool : List Frame) (pml4 : Frame)
    (slots : Fin 512 → Prop) (kind : Frame → Kind) (s : PhysMem) (kind' : Frame → Kind)
    (s' : PhysMem) : Prop where
  shape : Shape cover kind' s'.ram
  free : Free kind' s'.frames
  ext : Extends kind kind'
  left : s'.frames <:+ s.frames
  taken : ∀ f, kind' f ≠ .other → kind f ≠ .other ∨ f ∈ pool
  kept : ∀ f i, kind f = .root → ¬ (f = pml4 ∧ slots i) → s'.ram f i = s.ram f i
  linked : ∀ i, s.ram pml4 i ≠ .unused → s'.ram pml4 i ≠ .unused
  walks : ∀ page tr, cover pml4 (index 3 page) → walk s.ram 3 pml4 page = some tr →
    ∃ tr', walk s'.ram 3 pml4 page = some tr' ∧ tr'.frame = tr.frame ∧
      (tr.writable = true → tr'.writable = true)
  apart : ∀ f, kind' f = .other → s'.ram f = s.ram f
  written : ∃ ws, s'.writes = s.writes ++ ws ∧ ∀ w ∈ ws, ∃ f, kind' f ≠ .other ∧ w.Within (frameSpan f)
  mapped : ∃ ms, s'.mapped = s.mapped ++ ms ∧ ∀ m ∈ ms, slots (index 3 m.1)

namespace RegionLemmas

variable {c : Mapper} {cover : Frame → Fin 512 → Prop} {pool : List Frame} {pml4 : Frame}
  {slots : Fin 512 → Prop} {kind kind' kind'' : Frame → Kind} {s s' s'' : PhysMem}

theorem Extends.other (h : Extends kind kind') {f : Frame} (hf : kind' f = .other) :
    kind f = .other := by
  by_contra hne
  exact hne ((h f hne).symm.trans hf)

theorem grows_refl (hs : Shape cover kind s.ram) (hfree : Free kind s.frames) :
    Grows cover pool pml4 slots kind s kind s where
  shape := hs
  free := hfree
  ext := .refl kind
  left := List.suffix_rfl
  taken _ hf := .inl hf
  kept _ _ _ _ := rfl
  linked _ hi := hi
  walks _ tr _ h := ⟨tr, h, rfl, id⟩
  apart _ _ := rfl
  written := ⟨[], (List.append_nil _).symm, fun _ hw => nomatch hw⟩
  mapped := ⟨[], (List.append_nil _).symm, fun _ hm => nomatch hm⟩

theorem Grows.trans (h : Grows cover pool pml4 slots kind s kind' s')
    (h' : Grows cover pool pml4 slots kind' s' kind'' s'') :
    Grows cover pool pml4 slots kind s kind'' s'' := by
  constructor
  case shape => exact h'.shape
  case free => exact h'.free
  case ext => exact h.ext.trans h'.ext
  case left => exact h'.left.trans h.left
  case taken =>
    intro f hf
    rcases h'.taken f hf with hf' | hf'
    · exact h.taken f hf'
    · exact .inr hf'
  case kept =>
    intro f i hf hne
    have hf' : kind' f = .root := h.ext.root hf
    rw [h'.kept f i hf' hne, h.kept f i hf hne]
  case linked => exact fun i hi => h'.linked i (h.linked i hi)
  case walks =>
    intro page tr hc hw
    obtain ⟨tr₁, hw₁, hframe₁, hwritable₁⟩ := h.walks page tr hc hw
    obtain ⟨tr₂, hw₂, hframe₂, hwritable₂⟩ := h'.walks page tr₁ hc hw₁
    exact ⟨tr₂, hw₂, hframe₂.trans hframe₁, fun hwr => hwritable₂ (hwritable₁ hwr)⟩
  case apart =>
    intro f hf
    rw [h'.apart f hf, h.apart f (Extends.other h'.ext hf)]
  case written =>
    obtain ⟨ws, hws, hin⟩ := h.written
    obtain ⟨ws', hws', hin'⟩ := h'.written
    refine ⟨ws ++ ws', by rw [hws', hws, List.append_assoc], fun w hw => ?_⟩
    rcases List.mem_append.mp hw with hw | hw
    · obtain ⟨f, hf, hwf⟩ := hin w hw
      refine ⟨f, ?_, hwf⟩
      rw [h'.ext f hf]
      exact hf
    · exact hin' w hw
  case mapped =>
    obtain ⟨ms, hms, hin⟩ := h.mapped
    obtain ⟨ms', hms', hin'⟩ := h'.mapped
    refine ⟨ms ++ ms', by rw [hms', hms, List.append_assoc], fun m hm => ?_⟩
    rcases List.mem_append.mp hm with hm | hm
    · exact hin m hm
    · exact hin' m hm

/-- A frame is taken. -/
theorem grows_take {f : Frame} {frames : List Frame} (hs : Shape cover kind s.ram)
    (hfree : Free kind s.frames) (hf : s.frames = f :: frames) :
    Grows cover pool pml4 slots kind s kind { s with frames := frames } := by
  have hfree' : Free kind (f :: frames) := hf ▸ hfree
  have h : Grows cover pool pml4 slots kind s kind s := grows_refl hs hfree
  refine { h with free := hfree'.tail, left := ?_ }
  rw [hf]
  exact List.suffix_cons f frames

/-- A page is mapped to a frame that was taken before. -/
theorem grows_mapTo {frame : Frame} {page : Nat} {flags : Flags} {used : List Frame}
    {out : MapOutcome} {writes : List Span} (hs : Shape cover kind s.ram) (hpml4 : kind pml4 = .root)
    (hspare : Spare kind page frame s.frames) (hslot : slots (index 3 page)) (hframe : frame ∈ pool)
    (hpool : s.frames ⊆ pool) (hwrites : writes ⊆ out.writes)
    (h : MapEffect cover kind kind' page flags frame 3 pml4 s.ram s.frames used out) :
    Grows cover pool pml4 slots kind s kind' { s with
      ram := out.ram
      frames := out.frames
      writes := s.writes ++ writes
      mapped := s.mapped ++ mapLog page flags out.result } := by
  have hused : ∀ f ∈ used, f ∈ s.frames := fun f hf => h.frames_eq ▸ List.mem_append_left _ hf
  constructor
  case shape => exact h.shape
  case free => exact (h.spare hspare).toFree
  case ext => exact h.extends hspare
  case left => exact ⟨used, h.frames_eq.symm⟩
  case taken =>
    intro f hf
    by_cases hin : f ∈ frame :: used
    · rcases List.mem_cons.mp hin with rfl | hin
      · exact .inr hframe
      · exact .inr (hpool (hused f hin))
    · rw [h.grown f hin] at hf
      exact .inl hf
  case kept =>
    intro f i hf hne
    refine h.root_eq hspare hf ?_
    rintro ⟨rfl, rfl⟩
    exact hne ⟨rfl, hslot⟩
  case linked =>
    intro i hi
    by_cases heq : i = index 3 page
    · subst heq
      exact (h.entry (by decide)).stays_used hi
    · show out.ram pml4 i ≠ .unused
      rw [h.root_eq hspare hpml4 fun hne => heq hne.2]
      exact hi
  case walks =>
    intro page' tr hc hw
    refine hs.walk_gains (fun f i l k hin hne => h.kept f i (fun hused => ?_) hne) (Nat.le_refl 3)
      (holds_root hpml4 hc) hw
    exact hin.ne_other (h.used_free hspare f hused)
  case apart =>
    intro f hf
    funext j
    by_contra hch
    rcases h.changed f j hch with hin | ⟨rfl, -⟩ | ⟨l, k, -, hk⟩
    · obtain ⟨l, k, hl⟩ := h.tables f hin
      rw [hf] at hl
      cases hl
    · rw [Extends.other (h.extends hspare) hf] at hpml4
      cases hpml4
    · rw [Extends.other (h.extends hspare) hf] at hk
      cases hk
  case written => exact ⟨writes, rfl, fun w hw => h.written w (hwrites hw)⟩
  case mapped =>
    refine ⟨_, rfl, fun m hm => ?_⟩
    rw [eq_of_mem_mapLog hm]
    exact hslot

/-! ## The loop over the pages -/

/-- The mapper of a PML4 walks as the hardware does. -/
theorem translateAddr_eq_walk (hc : c.Lawful) (hs : Shape cover kind s.ram) (va : Nat)
    (hin : Holds cover kind 3 (va / 4096) pml4) :
    c.translateAddr s.ram pml4 va =
      (walk s.ram 3 pml4 (va / 4096)).map fun tr => tr.frame.toNat * 4096 + va % 4096 :=
  hc.translateAddr_eq s.ram pml4 va (hs.regular (Nat.le_refl 3) hin)

/-- What mapping `count` pages from `page` on has done: all of them are mapped, what was mapped before has
kept its contents, and if the pages are writable and all others are, all are. -/
structure Region (cover : Frame → Fin 512 → Prop) (pool : List Frame) (pml4 : Frame)
    (slots : Fin 512 → Prop) (flags : Flags) (count page : Nat) (kind : Frame → Kind) (s : PhysMem)
    (kind' : Frame → Kind) (s' : PhysMem) : Prop
    extends Grows cover pool pml4 slots kind s kind' s' where
  contents : ∀ f p, kind f = .data p → s'.ram f = s.ram f
  pages : ∀ n, n < count → ∃ tr, walk s'.ram 3 pml4 (page + n) = some tr
  rights : flags.isWritable = true → AllWritable cover kind s.ram → AllWritable cover kind' s'.ram
  reads_eq : s'.reads = s.reads

theorem region_nil {flags : Flags} {page : Nat} (hs : Shape cover kind s.ram)
    (hfree : Free kind s.frames) : Region cover pool pml4 slots flags 0 page kind s kind s :=
  { grows_refl hs hfree with
    contents := fun _ _ _ => rfl
    pages := fun n hn => absurd hn (Nat.not_lt_zero n)
    rights := fun _ h => h
    reads_eq := rfl }

/-- A page is mapped, and then those after it. -/
theorem Region.cons {flags : Flags} {count page : Nat} (hcover : ∀ i, slots i → cover pml4 i)
    (hslot : slots (index 3 page)) (h : Region cover pool pml4 slots flags 1 page kind s kind' s')
    (h' : Region cover pool pml4 slots flags count (page + 1) kind' s' kind'' s'') :
    Region cover pool pml4 slots flags (count + 1) page kind s kind'' s'' := by
  refine { Grows.trans h.toGrows h'.toGrows with contents := ?_, pages := ?_, rights := ?_, reads_eq := ?_ }
  · intro f p hf
    rw [h'.contents f p (h.ext.data hf), h.contents f p hf]
  · intro n hn
    cases n with
    | zero =>
      obtain ⟨tr, hw⟩ := h.pages 0 Nat.one_pos
      obtain ⟨tr', hw', -⟩ := h'.walks page tr (hcover _ hslot) hw
      exact ⟨tr', hw'⟩
    | succ n =>
      obtain ⟨tr, hw⟩ := h'.pages n (by omega)
      refine ⟨tr, ?_⟩
      rw [Nat.add_comm n 1, ← Nat.add_assoc]
      exact hw
  · exact fun hw hall => h'.rights hw (h.rights hw hall)
  · rw [h'.reads_eq, h.reads_eq]

/-- A page that was not mapped gets a frame. -/
theorem region_mapTo {frame : Frame} {frames : List Frame} {page : Nat} {flags : Flags}
    {used : List Frame} {out : MapOutcome} {writes : List Span} (hs : Shape cover kind s.ram)
    (hfree : Free kind s.frames) (hpml4 : kind pml4 = .root) (hframes : s.frames = frame :: frames)
    (hpool : s.frames ⊆ pool) (hslot : slots (index 3 page)) (hin : Holds cover kind 3 page pml4)
    (hwrites : writes ⊆ out.writes) (hok : out.result = .ok ())
    (h : MapEffect cover kind kind' page flags frame 3 pml4 s.ram frames used out) :
    Region cover pool pml4 slots flags 1 page kind s kind' { s with
      ram := out.ram
      frames := out.frames
      writes := s.writes ++ writes
      mapped := s.mapped ++ mapLog page flags out.result } := by
  have hspare : Spare kind page frame frames := Free.take (hframes ▸ hfree)
  have htake : Grows cover pool pml4 slots kind s kind { s with frames := frames } :=
    grows_take hs hfree hframes
  have hgrows := Grows.trans htake (grows_mapTo hs hpml4 hspare hslot
    (hpool (hframes ▸ List.mem_cons_self)) (fun f hf => hpool (hframes ▸ List.mem_cons_of_mem _ hf))
    hwrites h)
  refine { hgrows with contents := ?_, pages := ?_, rights := ?_, reads_eq := rfl }
  · exact fun f p hf => h.data_eq hspare hin hf
  · intro n hn
    obtain rfl : n = 0 := Nat.lt_one_iff.mp hn
    obtain ⟨tr, hw, -⟩ := h.walks hok
    exact ⟨tr, hw⟩
  · exact fun hw hall => hall.mapTo h hspare hw

theorem mapUserPages_ends (hc : c.Lawful) {flags : Flags} (hp : flags.isPresent = true)
    (hcover : ∀ i, slots i → cover pml4 i) :
    ∀ (count page : Nat) {kind : Frame → Kind} {s : PhysMem}, Shape cover kind s.ram →
      Free kind s.frames → kind pml4 = .root → s.frames ⊆ pool →
      (∀ n, n < count → slots (index 3 (page + n))) →
      Ends (mapUserPages c pml4 flags count page) s
        (fun _ s' => ∃ kind', Region cover pool pml4 slots flags count page kind s kind' s')
        (fun s' => ∃ kind', Grows cover pool pml4 slots kind s kind' s')
  | 0, page, kind, s, hs, hfree, _, _, _ => ⟨kind, region_nil hs hfree⟩
  | count + 1, page, kind, s, hs, hfree, hpml4, hpool, hslots => by
    have hslot : slots (index 3 page) := hslots 0 (Nat.succ_pos count)
    have hrest : ∀ n, n < count → slots (index 3 (page + 1 + n)) := by
      intro n hn
      have := hslots (n + 1) (by omega)
      rwa [Nat.add_comm n 1, ← Nat.add_assoc] at this
    -- the pages after this one, from the state in which this one is mapped
    have hnext : ∀ {kind' : Frame → Kind} {s' : PhysMem},
        Region cover pool pml4 slots flags 1 page kind s kind' s' →
        Ends (mapUserPages c pml4 flags count (page + 1)) s'
          (fun _ s'' => ∃ kind'', Region cover pool pml4 slots flags (count + 1) page kind s kind'' s'')
          (fun s'' => ∃ kind'', Grows cover pool pml4 slots kind s kind'' s'') := by
      intro kind' s' h
      have hpml4' : kind' pml4 = .root := h.ext.root hpml4
      refine (mapUserPages_ends hc hp hcover count (page + 1) h.shape h.free hpml4'
        (fun f hf => hpool (h.left.subset hf)) hrest).mono ?_ ?_
      · rintro _ s'' ⟨kind'', h'⟩
        exact ⟨kind'', Region.cons hcover hslot h h'⟩
      · rintro s'' ⟨kind'', h'⟩
        exact ⟨kind'', Grows.trans h.toGrows h'⟩
    have hin : Holds cover kind 3 page pml4 := holds_root hpml4 (hcover _ hslot)
    have hdiv : page * 4096 / 4096 = page := Nat.mul_div_cancel page (by decide)
    have htr := translateAddr_eq_walk hc hs (page * 4096) (by rwa [hdiv])
    rw [hdiv] at htr
    unfold mapUserPages
    rw [ends_bind, ends_nextPage]
    refine ⟨fun _ => ?_, fun _ => ⟨kind, grows_refl hs hfree⟩⟩
    rw [ends_bind, ends_get, htr]
    rcases hw : walk s.ram 3 pml4 page with _ | tr
    · show Ends (allocateFrame >>= _) _ _ _
      rw [ends_expect_allocateFrame]
      refine ⟨fun _ => ⟨kind, grows_refl hs hfree⟩, fun frame frames hframes => ?_⟩
      have htake : Grows cover pool pml4 slots kind s kind { s with frames := frames } :=
        grows_take hs hfree hframes
      have hspare : Spare kind page frame frames := Free.take (hframes ▸ hfree)
      rw [ends_bind]
      refine ends_mapTo hc hs hin hspare hp (fun _ => ⟨kind, htake⟩)
        fun kind' used out writes hwrites _ heffect => ?_
      rw [ends_bind, ends_expectOk]
      refine ⟨fun hok => ?_, fun e herr => ⟨kind', ?_⟩⟩
      · exact hnext (region_mapTo hs hfree hpml4 hframes hpool hslot hin hwrites hok heffect)
      · exact Grows.trans htake (grows_mapTo hs hpml4 hspare hslot
          (hpool (hframes ▸ List.mem_cons_self))
          (fun f hf => hpool (hframes ▸ List.mem_cons_of_mem _ hf)) hwrites heffect)
    · refine hnext { grows_refl hs hfree with
        contents := fun _ _ _ => rfl
        pages := fun n hn => ?_
        rights := fun _ h => h
        reads_eq := rfl }
      obtain rfl : n = 0 := Nat.lt_one_iff.mp hn
      exact ⟨tr, hw⟩

/-! ## `map_user_region` -/

/-- An entry of the PML4 that points to a table gets other flags. -/
theorem grows_setEntry {i : Fin 512} {e : Entry} (hs : Shape cover kind s.ram)
    (hfree : Free kind s.frames) (hpml4 : kind pml4 = .root) (hslot : slots i) (hcover : cover pml4 i)
    (he : e.flags.isPresent = true) (hpoints : Points kind 2 i.val e) (hgains : Gains (s.ram pml4 i) e) :
    Grows cover pool pml4 slots kind s kind
      { s with ram := s.ram.set pml4 i e, writes := s.writes ++ [entrySpan pml4 i] } := by
  have h : Grows cover pool pml4 slots kind s kind s := grows_refl hs hfree
  refine { h with shape := ?_, kept := ?_, linked := ?_, walks := ?_, apart := ?_, written := ?_ }
  · refine hs.set (fits_of_points (.inr ⟨rfl, rfl, hpml4, hcover⟩) ?_)
    rwa [Nat.zero_mul, Nat.zero_add]
  · intro f j hf hne
    refine Ram.set_of_ne ?_ e
    rintro ⟨rfl, rfl⟩
    exact hne ⟨rfl, hslot⟩
  · intro j hj
    by_cases heq : j = i
    · subst heq
      show s.ram.set pml4 j e pml4 j ≠ .unused
      rw [Ram.set_self]
      exact ne_unused_of_present he
    · show s.ram.set pml4 i e pml4 j ≠ .unused
      rw [Ram.set_of_ne fun hne => heq hne.2]
      exact hj
  · intro page tr hc hw
    refine hs.walk_gains (fun f j l k _ _ => ?_) (Nat.le_refl 3) (holds_root hpml4 hc) hw
    show Gains (s.ram f j) (s.ram.set pml4 i e f j)
    by_cases heq : f = pml4 ∧ j = i
    · obtain ⟨rfl, rfl⟩ := heq
      rw [Ram.set_self]
      exact hgains
    · rw [Ram.set_of_ne heq]
      exact Gains.refl _
  · intro f hf
    refine Ram.set_of_frame_ne ?_ i e
    rintro rfl
    rw [hpml4] at hf
    cases hf
  · refine ⟨[entrySpan pml4 i], rfl, fun w hw => ⟨pml4, ne_other_of_root hpml4, ?_⟩⟩
    rw [List.mem_singleton.mp hw]
    exact entrySpan_within pml4 i

theorem userFlags_isPresent (extra : Flags) :
    ((Flags.present.union .user).union extra).isPresent = true := by
  rw [Flags.isPresent_union]
  rfl

/-- The flags of the pages of a region. -/
def regionFlags (extra : Flags) : Flags := (Flags.present.union .user).union extra

/-- The number of pages of a region. -/
def regionCount (virtStart size : Nat) : Nat := (virtStart + size - 1) / 4096 + 1 - virtStart / 4096

/-- The entry of the PML4 becomes accessible from ring 3. -/
theorem grows_setUser {i : Fin 512} (hs : Shape cover kind s.ram) (hfree : Free kind s.frames)
    (hpml4 : kind pml4 = .root) (hslot : slots i) (hcover : cover pml4 i)
    (hentry : s.ram pml4 i ≠ .unused) :
    Grows cover pool pml4 slots kind s kind { s with
      ram := s.ram.set pml4 i { s.ram pml4 i with flags := (s.ram pml4 i).flags.union .user }
      writes := s.writes ++ [entrySpan pml4 i] } := by
  obtain ⟨hpresent, hhuge, htable⟩ :=
    ((hs pml4 i).inner 2 0 (.inr ⟨rfl, rfl, hpml4, hcover⟩)).resolve_left hentry
  rw [Nat.zero_mul, Nat.zero_add] at htable
  have hpresent' : ((s.ram pml4 i).flags.union .user).isPresent = true := by
    rw [Flags.isPresent_union, hpresent]
    rfl
  have hhuge' : ((s.ram pml4 i).flags.union .user).isHuge = false := by
    rw [Flags.isHuge_union, hhuge]
    rfl
  exact grows_setEntry hs hfree hpml4 hslot hcover hpresent' (.inr ⟨hpresent', hhuge', htable⟩)
    ⟨rfl, .user, by decide, rfl⟩

theorem Region.setUser {flags : Flags} {count page : Nat} {i : Fin 512}
    (h : Region cover pool pml4 slots flags count page kind s kind' s') (hpml4 : kind pml4 = .root)
    (hslots : ∀ n, n < count → cover pml4 (index 3 (page + n))) (hslot : slots i)
    (hcover : cover pml4 i) (hentry : s'.ram pml4 i ≠ .unused) :
    Region cover pool pml4 slots flags count page kind s kind' { s' with
      ram := s'.ram.set pml4 i { s'.ram pml4 i with flags := (s'.ram pml4 i).flags.union .user }
      writes := s'.writes ++ [entrySpan pml4 i] } := by
  have hset := @grows_setUser _ pool _ slots _ _ _ h.shape h.free (h.ext.root hpml4) hslot hcover hentry
  constructor
  case toGrows => exact Grows.trans h.toGrows hset
  case contents =>
    intro f p hf
    refine (Ram.set_of_frame_ne ?_ _ _).trans (h.contents f p hf)
    rintro rfl
    rw [hpml4] at hf
    cases hf
  case pages =>
    intro n hn
    obtain ⟨tr, hw⟩ := h.pages n hn
    obtain ⟨tr', hw', -⟩ := hset.walks _ tr (hslots n hn) hw
    exact ⟨tr', hw'⟩
  case rights =>
    intro hwr hall t j l k hinner
    have hold := h.rights hwr hall t j l k hinner
    show s'.ram.set pml4 i _ t j = .unused ∨ (s'.ram.set pml4 i _ t j).flags.isWritable = true
    by_cases heq : t = pml4 ∧ j = i
    · obtain ⟨rfl, rfl⟩ := heq
      rw [Ram.set_self]
      refine .inr ?_
      show ((s'.ram t j).flags.union .user).isWritable = true
      rw [Flags.isWritable_union, hold.resolve_left hentry]
      rfl
    · rw [Ram.set_of_ne heq]
      exact hold
  case reads_eq => exact h.reads_eq

theorem mapUserRegion_ends (hc : c.Lawful) (hs : Shape cover kind s.ram) (hfree : Free kind s.frames)
    (hpml4 : kind pml4 = .root) (hpool : s.frames ⊆ pool) (hcover : ∀ i, slots i → cover pml4 i)
    {virtStart size : Nat} {extra : Flags} (hsize : 0 < size)
    (hslots : ∀ page, virtStart / 4096 ≤ page → page ≤ (virtStart + size - 1) / 4096 →
      slots (index 3 page)) :
    Ends (mapUserRegion c pml4 virtStart size extra) s
      (fun _ s' => ∃ kind', Region cover pool pml4 slots (regionFlags extra)
        (regionCount virtStart size) (virtStart / 4096) kind s kind' s')
      (fun s' => ∃ kind', Grows cover pool pml4 slots kind s kind' s') := by
  have hpages : virtStart / 4096 ≤ (virtStart + size - 1) / 4096 :=
    Nat.div_le_div_right (by omega)
  have hcount : ∀ n, n < regionCount virtStart size → slots (index 3 (virtStart / 4096 + n)) := by
    intro n hn
    unfold regionCount at hn
    exact hslots _ (by omega) (by omega)
  have hpos : 0 < regionCount virtStart size := by
    unfold regionCount
    omega
  unfold mapUserRegion addAddr
  rw [ends_bind, ends_virtAddr]
  refine ⟨fun _ => ?_, fun _ => ⟨kind, grows_refl hs hfree⟩⟩
  rw [ends_bind, ends_subAddr]
  refine ⟨fun _ => ?_, fun _ => ⟨kind, grows_refl hs hfree⟩⟩
  rw [ends_bind]
  refine (mapUserPages_ends hc (userFlags_isPresent extra) hcover _ _ hs hfree hpml4 hpool
    hcount).mono ?_ fun _ h => h
  rintro _ s' ⟨kind', h⟩
  rw [ends_bind, ends_get, ends_setEntry]
  obtain ⟨tr, hw⟩ := h.pages 0 hpos
  have hslot := hcount 0 hpos
  exact ⟨kind', Region.setUser h hpml4 (fun n hn => hcover _ (hcount n hn)) hslot (hcover _ hslot)
    (walk_used hw)⟩

/-! ## `create_process_pml4` -/

/-- The table that `create_process_pml4` makes in the frame `f`. -/
def newPml4 (ram : Ram) (cr3 f : Frame) : Table := fun i =>
  if 256 ≤ i.val ∧ cr3 ≠ f then ram cr3 i else .unused

theorem ends_createProcessPml4 {cr3 : Frame} {Q : Frame → PhysMem → Prop} {E : PhysMem → Prop} :
    Ends (createProcessPml4 cr3) s Q E ↔ (s.frames = [] → E s) ∧
      ∀ f frames, s.frames = f :: frames → Q f { s with
        ram := s.ram.setTable f (newPml4 s.ram cr3 f)
        frames := frames
        writes := s.writes ++ [frameSpan f, frameSpan f] } := by
  unfold createProcessPml4
  rw [ends_expect_allocateFrame]
  refine and_congr Iff.rfl (forall_congr' fun f => forall_congr' fun frames => imp_congr Iff.rfl ?_)
  rw [ends_bind, ends_setTable, ends_bind, ends_get, ends_bind, ends_setTable, ends_pure]
  have hram : (s.ram.setTable f fun _ => .unused).setTable f (fun i =>
      if 256 ≤ i.val then (s.ram.setTable f fun _ => .unused) cr3 i
      else (s.ram.setTable f fun _ => .unused) f i) = s.ram.setTable f (newPml4 s.ram cr3 f) := by
    unfold Ram.setTable newPml4
    rw [Function.update_idem]
    congr 1
    funext i
    rw [Function.update_self]
    by_cases hi : 256 ≤ i.val <;> by_cases heq : cr3 = f
    · rw [if_pos hi, if_neg (fun h => h.2 heq), heq, Function.update_self]
    · rw [if_pos hi, if_pos ⟨hi, heq⟩, Function.update_of_ne heq]
    all_goals rw [if_neg hi, if_neg fun h => hi h.1]
  dsimp only
  rw [hram, List.append_assoc]
  exact Iff.rfl

/-- A new PML4 has no pages in the lower half, and what it shares with that in `CR3` is of the known
shape there. -/
theorem shape_newPml4 {cr3 f : Frame} (hs : Shape cover kind s.ram) (hf : kind f = .other)
    (hupper : ∀ i, 256 ≤ i.val → cover f i → cr3 ≠ f → Inner cover kind 3 0 cr3 i) :
    Shape cover (Function.update kind f .root) (s.ram.setTable f (newPml4 s.ram cr3 f)) := by
  have hext := extends_update hf .root
  refine hs.change hext fun t i => ?_
  unfold Ram.setTable newPml4
  by_cases ht : t = f
  · subst ht
    right
    rw [Function.update_self]
    by_cases hcond : 256 ≤ i.val ∧ cr3 ≠ t
    · rw [if_pos hcond]
      have hroot : Function.update kind t .root t = .root := Function.update_self ..
      constructor
      case inner =>
        rintro level key (hin | ⟨hl, rfl, -, hcov⟩)
        · rw [hroot] at hin
          cases hin
        · cases hl
          exact ((hs cr3 i).inner 2 0 (hupper i hcond.1 hcov hcond.2)).mono hext
      case leaf =>
        intro key h
        rw [hroot] at h
        cases h
    · rw [if_neg hcond]
      exact fits_unused
  · rw [Function.update_of_ne ht, Function.update_of_ne ht]
    exact .inl ⟨rfl, rfl⟩

end RegionLemmas

end Turnix
