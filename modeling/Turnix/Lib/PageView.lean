import Turnix.Lib.Paging

/-!
# The pages of an address space

What page tables are for: a partial map from pages to frames and flags (`view`). The way to a page ends at its
leaf or at an unused entry (`leafAt`), which decides what the page is mapped to (`Shape.view_eq`). Mapping a page
changes only entries that are on the way to this page (`MapTo.changed_path`), so it changes the end of this way
only (`MapTo.leafAt_eq`). It takes a frame for each level at most, and it fails only if the allocator does
(`MapTo.ok_or_exhausted`).
-/

namespace Turnix.Lib.Paging

/-- The frame of a page and the flags of its leaf, from the table `t` of a level on. -/
def view (ram : Ram) (level : Nat) (t : Frame) (page : Nat) : Option (Frame × Flags) :=
  (walk ram level t page).map fun tr => (tr.frame, tr.flags)

/-- The entry at which the way to a page ends. -/
def leafAt (ram : Ram) : Nat → Frame → Nat → Entry
  | 0, t, page => ram t (index 0 page)
  | level + 1, t, page =>
    let e := ram t (index (level + 1) page)
    if e = .unused then .unused else leafAt ram level e.frame page

/-- What a leaf maps a page to. -/
def Entry.target (e : Entry) : Option (Frame × Flags) :=
  if e.flags.isPresent then some (e.frame, e.flags) else none

/-! ## Positions -/

/-- Pages with the same entry in a level have the same entries above it. -/
theorem position_eq_of_le {page page' l m : Nat} (hle : l ≤ m) (h : position l page' = position l page) :
    position m page' = position m page := by
  obtain ⟨k, rfl⟩ := Nat.exists_eq_add_of_le hle
  unfold position at h ⊢
  rw [Nat.pow_add, ← Nat.div_div_eq_div_mul, ← Nat.div_div_eq_div_mul, h]

theorem index_eq_of_position {page page' level : Nat} (hlevel : level ≤ 3)
    (h : position level page' = position level page) : index level page' = index level page := by
  have hpos := position_succ page hlevel
  have hpos' := position_succ page' hlevel
  have hi := (index level page).isLt
  have hi' := (index level page').isLt
  refine Fin.ext ?_
  omega

theorem position_eq_of_index {page page' level : Nat} (hlevel : level ≤ 3)
    (h : position (level + 1) page' = position (level + 1) page)
    (hindex : index level page' = index level page) : position level page' = position level page := by
  rw [← position_succ page hlevel, ← position_succ page' hlevel, h, hindex]

section Views

variable {cover : Frame → Fin 512 → Prop} {kind : Frame → Kind} {ram ram' : Ram} {page page' level : Nat}
  {t f frame : Frame} {flags : Flags} {e : Entry} {frames : List Frame} {out : MapOutcome}

/-! ## Ways -/

theorem view_through (he : ram t (index (level + 1) page) = e) (hp : e.flags.isPresent = true)
    (hh : e.flags.isHuge = false) : view ram (level + 1) t page = view ram level e.frame page := by
  unfold view
  rw [walk_through he hp hh, Option.map_map]
  rfl

theorem view_unused (he : ram t (index level page) = .unused) : view ram level t page = none := by
  unfold view
  rcases hw : walk ram level t page with _ | tr
  · rfl
  · exact absurd he (walk_used hw)

theorem leafAt_through (he : ram t (index (level + 1) page) = e) (hused : e ≠ .unused) :
    leafAt ram (level + 1) t page = leafAt ram level e.frame page := by
  show (if ram t (index (level + 1) page) = .unused then _ else _) = _
  rw [he, if_neg hused]

theorem leafAt_unused (he : ram t (index level page) = .unused) : leafAt ram level t page = .unused := by
  cases level with
  | zero => exact he
  | succ level => exact if_pos he

/-- The end of the way decides what a page is mapped to. -/
theorem Shape.view_eq (hs : Shape cover kind ram) : ∀ {level : Nat} {t : Frame}, level ≤ 3 →
    Holds cover kind level page t → view ram level t page = (leafAt ram level t page).target
  | 0, t, _, _ => by
    unfold view walk leafAt Entry.target
    dsimp only
    by_cases hp : (ram t (index 0 page)).flags.isPresent = true
    · rw [if_pos hp, if_pos hp, Option.map_some, leafOf_zero_frame]
      rfl
    · rw [if_neg hp, if_neg hp, Option.map_none]
  | level + 1, t, hlevel, ht => by
    rcases hs.points hlevel ht with hu | ⟨hp, hh, hk⟩
    · rw [view_unused hu, leafAt_unused hu]
      rfl
    · rw [view_through rfl hp hh, leafAt_through rfl (ne_unused_of_present hp)]
      exact hs.view_eq (by omega) (.inl hk)

/-- A way ends at an unused entry or at a leaf, whose frame is used for the page. -/
theorem Shape.leafAt_data (hs : Shape cover kind ram) : ∀ {level : Nat} {t : Frame}, level ≤ 3 →
    Holds cover kind level page t →
    leafAt ram level t page = .unused ∨ kind (leafAt ram level t page).frame = .data (position 0 page)
  | 0, t, _, ht => by
    have hk : kind t = .table 0 (position 1 page) := by
      rcases ht with hk | ⟨hl, -⟩
      · exact hk
      · cases hl
    have hleaf := ((hs t (index 0 page)).leaf _ hk).imp id And.right
    rwa [position_succ page (by decide)] at hleaf
  | level + 1, t, hlevel, ht => by
    rcases hs.points hlevel ht with hu | ⟨hp, -, hk⟩
    · exact .inl (leafAt_unused hu)
    · rw [leafAt_through rfl (ne_unused_of_present hp)]
      exact hs.leafAt_data (by omega) (.inl hk)

/-- The entry is as before, or it is one above the leaves that has gained flags. -/
def Stays (level : Nat) (e e' : Entry) : Prop := e' = e ∨ (0 < level ∧ e ≠ .unused ∧ Gains e e')

/-- A way ends where it did if the entries on it stay. -/
theorem Shape.leafAt_congr (hs : Shape cover kind ram) : ∀ {level : Nat} {t : Frame}, level ≤ 3 →
    Holds cover kind level page t →
    (∀ l f, l ≤ level → Holds cover kind l page f →
      Stays l (ram f (index l page)) (ram' f (index l page))) →
    leafAt ram' level t page = leafAt ram level t page
  | 0, t, _, ht, hstays => (hstays 0 t (Nat.le_refl 0) ht).resolve_right fun h => Nat.lt_irrefl 0 h.1
  | level + 1, t, hlevel, ht, hstays => by
    have hentry := hstays (level + 1) t (Nat.le_refl _) ht
    rcases hs.points hlevel ht with hu | ⟨hp, -, hk⟩
    · have hu' : ram' t (index (level + 1) page) = .unused :=
        (hentry.resolve_right fun h => h.2.1 hu).trans hu
      rw [leafAt_unused hu, leafAt_unused hu']
    · have hrest : leafAt ram' level (ram t (index (level + 1) page)).frame page =
          leafAt ram level (ram t (index (level + 1) page)).frame page :=
        hs.leafAt_congr (by omega) (.inl hk) fun l f hl hf => hstays l f (by omega) hf
      have hused := ne_unused_of_present hp
      rw [leafAt_through rfl hused, ← hrest]
      rcases hentry with heq | ⟨-, -, hframe, g, -, hflags⟩
      · exact leafAt_through heq hused
      · have hp' : (ram' t (index (level + 1) page)).flags.isPresent = true := by
          rw [hflags, Flags.isPresent_union, hp, Bool.true_or]
        rw [leafAt_through rfl (ne_unused_of_present hp'), hframe]

/-- A page that can be written has a leaf that allows it. -/
theorem walk_writable : ∀ {level : Nat} {t : Frame} {tr : Translation}, walk ram level t page = some tr →
    tr.writable = true → tr.flags.isWritable = true
  | 0, t, tr, h, hw => by
    obtain ⟨-, h⟩ := Option.ite_none_right_eq_some.mp h
    cases h
    exact hw
  | level + 1, t, tr, h, hw => by
    obtain ⟨-, h⟩ := Option.ite_none_right_eq_some.mp h
    split at h
    · obtain ⟨-, h⟩ := Option.ite_none_right_eq_some.mp h
      cases h
      exact hw
    · obtain ⟨tr', h', rfl⟩ := Option.map_eq_some_iff.mp h
      have hleaf := walk_writable h' (Bool.and_eq_true_iff.mp hw).2
      exact hleaf

/-- A table is not on the way through the tables of the levels below it. -/
theorem Shape.leafAt_set_above {e' : Entry} {i : Fin 512} (hs : Shape cover kind ram)
    (ht : Holds cover kind (level + 1) page t) (hlevel : level ≤ 3) (hf : Holds cover kind level page' f) :
    leafAt (ram.set t i e') level f page' = leafAt ram level f page' := by
  refine hs.leafAt_congr hlevel hf fun l g hl hg => .inl (congrFun (Ram.set_of_frame_ne ?_ _ _) _)
  rintro rfl
  have := (ht.unique hg).1
  omega

theorem Shape.not_huge (hs : Shape cover kind ram) (hlevel : level + 1 ≤ 3)
    (ht : Holds cover kind (level + 1) page t) (he : ram t (index (level + 1) page) = e)
    (hused : e ≠ .unused) : ¬ e.flags.isHuge = true := by
  subst he
  rw [((hs.points hlevel ht).resolve_left hused).2.1]
  exact Bool.false_ne_true

/-! ## Mapping a page -/

theorem MapTo.frames_le (h : MapTo page frame flags level t ram frames out) :
    frames.length ≤ out.frames.length + level := by
  induction h with
  | leaf => exact Nat.le_refl _
  | used => exact Nat.le_refl _
  | exhausted => exact Nat.zero_le _
  | @create level t f ram frames out hfree w hrest ih =>
    show frames.length + 1 ≤ out.frames.length + (level + 1)
    omega
  | huge => exact Nat.le_add_right _ _
  | @descend level t ram frames out e he hused hhuge w hrest ih =>
    show frames.length ≤ out.frames.length + (level + 1)
    omega

/-- Only entries on the way to the page change, and frames of the allocator. -/
theorem MapTo.changed_path (h : MapTo page frame flags level t ram frames out) :
    ∀ {kind : Frame → Kind}, level ≤ 3 → Shape cover kind ram → Holds cover kind level page t →
      Free kind frames → ∀ f j, out.ram f j ≠ ram f j →
        f ∈ frames ∨ ∃ l ≤ level, Holds cover kind l page f ∧ j = index l page := by
  induction h with
  | @leaf t ram frames hfree =>
    intro kind _ _ ht _ f j hne
    by_cases heq : f = t ∧ j = index 0 page
    · obtain ⟨rfl, rfl⟩ := heq
      exact .inr ⟨0, Nat.le_refl 0, ht, rfl⟩
    · exact absurd (Ram.set_of_ne heq _) hne
  | used => exact fun _ _ _ _ f j hne => absurd rfl hne
  | exhausted => exact fun _ _ _ _ f j hne => absurd rfl hne
  | @create level t g ram frames out hfree w hrest ih =>
    intro kind hlevel hs ht hfrees f j hne
    by_cases hg : f = g
    · exact .inl (hg ▸ List.mem_cons_self)
    by_cases heq : f = t ∧ j = index (level + 1) page
    · obtain ⟨rfl, rfl⟩ := heq
      exact .inr ⟨level + 1, Nat.le_refl _, ht, rfl⟩
    have hshape := hs.link ht (hfrees.other g List.mem_cons_self)
      (tableFlags_isPresent (w || flags.isWritable) flags.isUser) (tableFlags_isHuge _ _)
    rw [position_succ page hlevel] at hshape
    have hsame : ((ram.set t (index (level + 1) page)
        ⟨tableFlags (w || flags.isWritable) flags.isUser, g⟩).setTable g fun _ => .unused) f j = ram f j := by
      rw [Ram.setTable_of_ne hg, Ram.set_of_ne heq]
    rw [← hsame] at hne
    rcases ih (by omega) hshape (.inl (Function.update_self ..)) (hfrees.use _) f j hne with
      hin | ⟨l, hl, hf, hj⟩
    · exact .inl (List.mem_cons_of_mem _ hin)
    · unfold Holds Inner at hf
      rw [Function.update_of_ne hg] at hf
      exact .inr ⟨l, by omega, hf, hj⟩
  | @huge level t ram frames e he hused hhuge w =>
    intro kind _ _ ht _ f j hne
    by_cases heq : f = t ∧ j = index (level + 1) page
    · obtain ⟨rfl, rfl⟩ := heq
      exact .inr ⟨level + 1, Nat.le_refl _, ht, rfl⟩
    · exact absurd (Ram.set_of_ne heq _) hne
  | @descend level t ram frames out e he hused hhuge w hrest ih =>
    intro kind hlevel hs ht hfrees f j hne
    by_cases heq : f = t ∧ j = index (level + 1) page
    · obtain ⟨rfl, rfl⟩ := heq
      exact .inr ⟨level + 1, Nat.le_refl _, ht, rfl⟩
    obtain ⟨-, hk, -, hshape⟩ := hs.relink hlevel ht he hused
      (tableFlags_isHuge (w || flags.isWritable) flags.isUser)
    have hsame : ram.set t (index (level + 1) page)
        { e with flags := e.flags.union (tableFlags (w || flags.isWritable) flags.isUser) } f j = ram f j :=
      Ram.set_of_ne heq _
    rw [← hsame] at hne
    rcases ih (by omega) hshape (.inl hk) hfrees f j hne with hin | ⟨l, hl, hf, hj⟩
    · exact .inl hin
    · exact .inr ⟨l, by omega, hf, hj⟩

/-- The entry of a table is not on the way to a page of another entry. -/
theorem MapTo.entry_eq (h : MapTo page frame flags level f ram frames out) (hlevel : level ≤ 3)
    (hs : Shape cover kind ram) (hf : Holds cover kind level page f) (hfrees : Free kind frames)
    {l : Nat} (ht : Holds cover kind l page' t)
    (hne : ¬ (l ≤ level ∧ position l page' = position l page)) (hl : l ≤ 3) :
    out.ram t (index l page') = ram t (index l page') := by
  by_contra hch
  rcases h.changed_path hlevel hs hf hfrees t _ hch with hin | ⟨l', hl', ht', hindex⟩
  · exact ht.ne_other (hfrees.other t hin)
  · obtain ⟨rfl, hpos⟩ := ht.unique ht'
    exact hne ⟨hl', position_eq_of_index hl hpos.symm hindex⟩

/-- The ways through other entries end where they did, from any table of the level. -/
theorem MapTo.leafAt_other (h : MapTo page frame flags level t ram frames out) (hlevel : level ≤ 3)
    (hs : Shape cover kind ram) (ht : Holds cover kind level page t) (hfrees : Free kind frames)
    (hf : Holds cover kind level page' f) (hne : index level page' ≠ index level page) :
    leafAt out.ram level f page' = leafAt ram level f page' := by
  refine hs.leafAt_congr hlevel hf fun l g hl hg => .inl ?_
  refine h.entry_eq hlevel hs ht hfrees hg (fun hsame => hne ?_) (by omega)
  exact index_eq_of_position hlevel (position_eq_of_le hl hsame.2)

/-- Mapping a page changes the end of the way to this page only, and only if it succeeds. -/
theorem MapTo.leafAt_eq (h : MapTo page frame flags level t ram frames out) :
    ∀ {kind : Frame → Kind}, level ≤ 3 → Shape cover kind ram → Holds cover kind level page t →
      Free kind frames → ∀ page', Holds cover kind level page' t → leafAt out.ram level t page' =
        if position 0 page' = position 0 page ∧ out.result = .ok () then ⟨flags, frame⟩
        else leafAt ram level t page' := by
  induction h with
  | @leaf t ram frames hfree =>
    intro kind hlevel hs ht hfrees page' ht'
    by_cases hpos : position 0 page' = position 0 page
    · rw [if_pos ⟨hpos, rfl⟩]
      show ram.set t (index 0 page) ⟨flags, frame⟩ t (index 0 page') = ⟨flags, frame⟩
      rw [index_eq_of_position hlevel hpos, Ram.set_self]
    · rw [if_neg fun h => hpos h.1]
      refine (MapTo.leaf hfree).leafAt_other hlevel hs ht hfrees ht' fun hindex => hpos ?_
      exact position_eq_of_index hlevel (ht.unique ht').2 hindex
  | used => exact fun _ _ _ _ page' _ => (if_neg nofun).symm
  | exhausted => exact fun _ _ _ _ page' _ => (if_neg nofun).symm
  | @create level t f ram frames out hfree w hrest ih =>
    intro kind hlevel hs ht hfrees page' ht'
    by_cases hindex : index (level + 1) page' = index (level + 1) page
    · have hf : kind f = .other := hfrees.other f List.mem_cons_self
      have htf : t ≠ f := by
        rintro rfl
        exact ht.ne_other hf
      have hpos : position (level + 1) page' = position (level + 1) page :=
        position_eq_of_index hlevel (ht.unique ht').2 hindex
      have hlink := tableFlags_isPresent (w || flags.isWritable) flags.isUser
      have hshape := hs.link ht hf hlink (tableFlags_isHuge _ _)
      rw [position_succ page hlevel] at hshape
      have hkey := Function.update_self f (Kind.table level (position (level + 1) page)) kind
      have ht₁ : Holds cover (Function.update kind f (.table level (position (level + 1) page)))
          (level + 1) page' t := ht'.mono (extends_update hf _)
      -- the entry in `t` is not written again, and the new table is empty
      have hentry : out.ram t (index (level + 1) page') =
          ⟨tableFlags (w || flags.isWritable) flags.isUser, f⟩ := by
        rw [hrest.entry_eq (by omega) hshape (.inl hkey) (hfrees.use _) ht₁ (by omega) hlevel,
          Ram.setTable_of_ne htf, hindex, Ram.set_self]
      have hempty : leafAt ((ram.set t (index (level + 1) page)
          ⟨tableFlags (w || flags.isWritable) flags.isUser, f⟩).setTable f fun _ => .unused) level f page' =
            .unused :=
        leafAt_unused (congrFun (Ram.setTable_self _ _ _) _)
      show leafAt out.ram (level + 1) t page' =
        if position 0 page' = position 0 page ∧ out.result = .ok () then ⟨flags, frame⟩
        else leafAt ram (level + 1) t page'
      rw [leafAt_through hentry (ne_unused_of_present hlink),
        ih (by omega) hshape (.inl hkey) (hfrees.use _) page' (.inl (hpos ▸ hkey)), hempty,
        leafAt_unused (hindex ▸ hfree)]
    · rw [if_neg fun h => hindex (index_eq_of_position hlevel (position_eq_of_le (Nat.zero_le _) h.1))]
      exact (MapTo.create hfree w hrest).leafAt_other hlevel hs ht hfrees ht' hindex
  | @huge level t ram frames e he hused hhuge w =>
    intro kind hlevel hs ht
    exact absurd hhuge (hs.not_huge hlevel ht he hused)
  | @descend level t ram frames out e he hused hhuge w hrest ih =>
    intro kind hlevel hs ht hfrees page' ht'
    by_cases hindex : index (level + 1) page' = index (level + 1) page
    · have hpos : position (level + 1) page' = position (level + 1) page :=
        position_eq_of_index hlevel (ht.unique ht').2 hindex
      obtain ⟨hp, hk, -, hshape⟩ := hs.relink hlevel ht he hused
        (tableFlags_isHuge (w || flags.isWritable) flags.isUser)
      have hp' : (e.flags.union (tableFlags (w || flags.isWritable) flags.isUser)).isPresent = true := by
        rw [Flags.isPresent_union, hp, Bool.true_or]
      have hholds : Holds cover kind level page' e.frame := .inl (hpos ▸ hk)
      have hentry : out.ram t (index (level + 1) page') =
          { e with flags := e.flags.union (tableFlags (w || flags.isWritable) flags.isUser) } := by
        rw [hrest.entry_eq (by omega) hshape (.inl hk) hfrees ht' (by omega) hlevel, hindex, Ram.set_self]
      show leafAt out.ram (level + 1) t page' =
        if position 0 page' = position 0 page ∧ out.result = .ok () then ⟨flags, frame⟩
        else leafAt ram (level + 1) t page'
      rw [leafAt_through hentry (ne_unused_of_present hp'), ih (by omega) hshape (.inl hk) hfrees page' hholds,
        hs.leafAt_set_above ht (by omega) hholds, leafAt_through (hindex ▸ he) hused]
    · rw [if_neg fun h => hindex (index_eq_of_position hlevel (position_eq_of_le (Nat.zero_le _) h.1))]
      exact (MapTo.descend he hused hhuge w hrest).leafAt_other hlevel hs ht hfrees ht' hindex

/-- If the way to the page ends at an unused entry, mapping it fails only for lack of frames. -/
theorem MapTo.ok_or_exhausted (h : MapTo page frame flags level t ram frames out) :
    ∀ {kind : Frame → Kind}, level ≤ 3 → Shape cover kind ram → Holds cover kind level page t →
      Free kind frames → leafAt ram level t page = .unused → out.result = .ok () ∨ out.frames = [] := by
  induction h with
  | leaf => exact fun _ _ _ _ _ => .inl rfl
  | used hused => exact fun _ _ _ _ hleaf => absurd hleaf hused
  | exhausted => exact fun _ _ _ _ _ => .inr rfl
  | @create level t f ram frames out hfree w hrest ih =>
    intro kind hlevel hs ht hfrees _
    have hshape := hs.link ht (hfrees.other f List.mem_cons_self)
      (tableFlags_isPresent (w || flags.isWritable) flags.isUser) (tableFlags_isHuge _ _)
    rw [position_succ page hlevel] at hshape
    exact ih (by omega) hshape (.inl (Function.update_self ..)) (hfrees.use _)
      (leafAt_unused (congrFun (Ram.setTable_self _ _ _) _))
  | @huge level t ram frames e he hused hhuge w =>
    intro kind hlevel hs ht
    exact absurd hhuge (hs.not_huge hlevel ht he hused)
  | @descend level t ram frames out e he hused hhuge w hrest ih =>
    intro kind hlevel hs ht hfrees hleaf
    obtain ⟨-, hk, -, hshape⟩ := hs.relink hlevel ht he hused
      (tableFlags_isHuge (w || flags.isWritable) flags.isUser)
    rw [leafAt_through he hused] at hleaf
    exact ih (by omega) hshape (.inl hk) hfrees ((hs.leafAt_set_above ht (by omega) (.inl hk)).trans hleaf)

/-- A page below an entry of a large page, present or not, cannot be mapped. -/
theorem MapTo.huge_below (h : MapTo page frame flags (level + 2) t ram frames out) {e' : Entry}
    (he : ram t (index (level + 2) page) = e) (hused : e ≠ .unused) (hhuge : e.flags.isHuge = false)
    (hne : e.frame ≠ t) (he' : ram e.frame (index (level + 1) page) = e') (hused' : e' ≠ .unused)
    (hhuge' : e'.flags.isHuge = true) : out.result = .error .parentEntryHugePage := by
  cases h with
  | exhausted hfree => exact absurd (he.symm.trans hfree) hused
  | create hfree => exact absurd (he.symm.trans hfree) hused
  | huge he₁ _ hhuge₁ =>
    obtain rfl := he.symm.trans he₁
    exact absurd hhuge₁ (by rw [hhuge]; decide)
  | descend he₁ _ _ w hrest =>
    obtain rfl := he.symm.trans he₁
    have hbelow : ram.set t (index (level + 2) page)
        { e with flags := e.flags.union (tableFlags (w || flags.isWritable) flags.isUser) } e.frame
          (index (level + 1) page) = e' := (congrFun (Ram.set_of_frame_ne hne _ _) _).trans he'
    cases hrest with
    | exhausted hfree => exact absurd (hbelow.symm.trans hfree) hused'
    | create hfree => exact absurd (hbelow.symm.trans hfree) hused'
    | huge => rfl
    | descend he₂ _ hhuge₂ =>
      obtain rfl := hbelow.symm.trans he₂
      exact absurd hhuge₂ (by rw [hhuge']; decide)

/-- The frame of the new page is not written. -/
theorem MapEffect.frame_eq {kind' : Frame → Kind} {used : List Frame}
    (h : MapEffect cover kind kind' page flags frame level t ram frames used out)
    (hspare : Spare kind page frame frames) (ht : Holds cover kind level page t) :
    out.ram frame = ram frame := by
  funext j
  by_contra hne
  rcases h.changed frame j hne with hin | ⟨rfl, -⟩ | ⟨l, k, -, hk⟩
  · exact hspare.apart (h.frames_eq ▸ List.mem_append_left _ hin)
  · exact ht.no_frame hspare.frame
  · rcases hspare.frame with hf | hf <;> rw [hk] at hf <;> cases hf

/-- A frame that is used for a page is the new one, or it was used for the page before. -/
theorem MapEffect.data_cases {kind' : Frame → Kind} {used : List Frame} {key : Nat}
    (h : MapEffect cover kind kind' page flags frame level t ram frames used out)
    (hother : kind frame = .other) (hf : kind' f = .data key) :
    f = frame ∧ key = position 0 page ∨ kind f = .data key := by
  by_cases hframe : f = frame
  · subst hframe
    left
    rcases h.mapped with hk | hk
    · rw [hk, hother] at hf
      cases hf
    · rw [hk] at hf
      cases hf
      exact ⟨rfl, rfl⟩
  · right
    rw [← h.grown f, hf]
    rw [List.mem_cons, not_or]
    refine ⟨hframe, fun hin => ?_⟩
    obtain ⟨l, k, htable⟩ := h.tables f hin
    rw [hf] at htable
    cases htable

/-! ## Access from ring 3 -/

/-- All entries of known tables allow access from ring 3. -/
def AllUser (cover : Frame → Fin 512 → Prop) (kind : Frame → Kind) (ram : Ram) : Prop :=
  ∀ t i l k, Inner cover kind l k t i → ram t i = .unused ∨ (ram t i).flags.isUser = true

/-- What a page for ring 3 leaves of an entry: it is as before and the frame is still there if it was
free, or it is unused or allows access. -/
theorem MapTo.user (h : MapTo page frame flags level t ram frames out) (hu : flags.isUser = true) :
    ∀ f j, (out.ram f j = ram f j ∧ (f ∈ frames → f ∈ out.frames)) ∨ out.ram f j = .unused ∨
      (out.ram f j).flags.isUser = true := by
  induction h with
  | @leaf t ram frames hfree =>
    intro f j
    by_cases heq : f = t ∧ j = index 0 page
    · obtain ⟨rfl, rfl⟩ := heq
      refine .inr (.inr ?_)
      show (ram.set f (index 0 page) ⟨flags, frame⟩ f (index 0 page)).flags.isUser = true
      rw [Ram.set_self]
      exact hu
    · exact .inl ⟨Ram.set_of_ne heq _, id⟩
  | used => exact fun f j => .inl ⟨rfl, id⟩
  | exhausted => exact fun f j => .inl ⟨rfl, id⟩
  | @create level t g ram frames out hfree w hrest ih =>
    intro f j
    rcases ih f j with ⟨heq, hleft⟩ | hnew
    · by_cases hg : f = g
      · refine .inr (.inl ?_)
        show out.ram f j = .unused
        rw [heq, hg, Ram.setTable_self]
      by_cases hword : f = t ∧ j = index (level + 1) page
      · obtain ⟨rfl, rfl⟩ := hword
        refine .inr (.inr ?_)
        show (out.ram f (index (level + 1) page)).flags.isUser = true
        rw [heq, Ram.setTable_of_ne hg, Ram.set_self, tableFlags_isUser, hu]
      · refine .inl ⟨?_, fun hin => hleft ((List.mem_cons.mp hin).resolve_left hg)⟩
        show out.ram f j = ram f j
        rw [heq, Ram.setTable_of_ne hg, Ram.set_of_ne hword]
    · exact .inr hnew
  | @huge level t ram frames e he hused hhuge w =>
    intro f j
    by_cases hword : f = t ∧ j = index (level + 1) page
    · obtain ⟨rfl, rfl⟩ := hword
      refine .inr (.inr ?_)
      show (ram.set f _ _ f (index (level + 1) page)).flags.isUser = true
      rw [Ram.set_self, Flags.isUser_union, tableFlags_isUser, hu, Bool.or_true]
    · exact .inl ⟨Ram.set_of_ne hword _, id⟩
  | @descend level t ram frames out e he hused hhuge w hrest ih =>
    intro f j
    rcases ih f j with ⟨heq, hleft⟩ | hnew
    · by_cases hword : f = t ∧ j = index (level + 1) page
      · obtain ⟨rfl, rfl⟩ := hword
        refine .inr (.inr ?_)
        show (out.ram f (index (level + 1) page)).flags.isUser = true
        rw [heq, Ram.set_self, Flags.isUser_union, tableFlags_isUser, hu, Bool.or_true]
      · exact .inl ⟨heq.trans (Ram.set_of_ne hword _), hleft⟩
    · exact .inr hnew

theorem AllUser.mapTo {kind' : Frame → Kind} {used : List Frame} (h : AllUser cover kind ram)
    (hmap : MapTo page frame flags level t ram frames out)
    (heffect : MapEffect cover kind kind' page flags frame level t ram frames used out)
    (hspare : Spare kind page frame frames) (hu : flags.isUser = true) :
    AllUser cover kind' out.ram := by
  intro f i l k hin
  rcases hmap.user hu f i with ⟨heq, hleft⟩ | hnew
  · rw [heq]
    refine h f i l k (heffect.inner_old hspare (fun hused => ?_) hin)
    have hfree := hleft (heffect.frames_eq ▸ List.mem_append_left _ hused)
    exact hin.ne_other ((heffect.spare hspare).other f hfree)
  · exact hnew

/-- All pages can be accessed then. -/
theorem AllUser.walk (h : AllUser cover kind ram) (hs : Shape cover kind ram) {level : Nat} {t : Frame}
    {tr : Translation} (hlevel : level ≤ 3) (ht : Holds cover kind level page t)
    (hwalk : Paging.walk ram level t page = some tr) : tr.user = true := by
  refine hs.walk_induction (P := fun tr => tr.user = true) ?_ ?_ hlevel ht hwalk
  · exact fun t ht hused => (h t _ _ _ ht).resolve_left hused
  · intro level t tr ht hused htr
    show ((ram t _).flags.isUser && tr.user) = true
    rw [(h t _ _ _ ht).resolve_left hused, htr]
    rfl

end Views

end Turnix.Lib.Paging
