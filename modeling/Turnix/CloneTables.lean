import Turnix.Lib.PageTree
import Turnix.MapRegion

/-!
# Cloning page tables

`clone_table_level` makes a tree of new tables with the same frames at its leaves, which it marks as
read-only. `Cloned` is that relation between two entries. `fork_ends` says what `Process::fork` leaves:
the tables of the parent are as they were, and the child maps each page of the lower half to the frame
that the parent maps it to, not writable (`walk_twin`).
-/

namespace Turnix

open Lib Lib.Paging PanicM

/-! ## The relation -/

/-- `b` is what `clone_table_level` makes of the entry `a`, which points to a table with `level`
further ones below it. -/
def Cloned (ram : Ram) : Nat → Entry → Entry → Prop
  | 0, a, b => b = cloneLeaf true a
  | level + 1, a, b => b.flags = a.flags ∧ ∀ i,
    (ram a.frame i = .unused ∧ ram b.frame i = .unused) ∨
      (ram a.frame i ≠ .unused ∧ Cloned ram level (ram a.frame i) (ram b.frame i))

/-- `b` is the entry for the clone of `a`. -/
def Twin (ram : Ram) (level : Nat) (a b : Entry) : Prop :=
  (a = .unused ∧ b = .unused) ∨ (a ≠ .unused ∧ Cloned ram level a b)

/-- How the child sees a page of its parent. -/
def cowed (tr : Translation) : Translation :=
  { tr with flags := (tr.flags.remove .writable).union .bit9, writable := false }

/-- The entry may stand at a position of a level: it maps a frame, or it points to a table with `level`
further ones below it. -/
def Sits (kind : Frame → Kind) : Nat → Nat → Entry → Prop
  | 0, key, e => e.flags.isPresent = true ∧ kind e.frame = .data key
  | level + 1, key, e =>
    e.flags.isPresent = true ∧ e.flags.isHuge = false ∧ kind e.frame = .table level key

/-- What code does that makes new tables and changes no other frame but those in `changed`. -/
structure Copies (cover : Frame → Fin 512 → Prop) (changed : List Frame) (kind : Frame → Kind)
    (s : PhysMem) (kind' : Frame → Kind) (s' : PhysMem) : Prop where
  shape : Shape cover kind' s'.ram
  free : Free kind' s'.frames
  left : s'.frames <:+ s.frames
  grown : ∀ f, f ∉ s.frames → kind' f = kind f
  kept : ∀ f, f ∉ changed ++ s.frames → s'.ram f = s.ram f

open RegionLemmas

namespace CloneLemmas

variable {cover : Frame → Fin 512 → Prop} {kind kind' kind'' : Frame → Kind} {ram ram' : Ram}
  {s s' s'' : PhysMem} {changed : List Frame} {t f : Frame} {i : Fin 512} {a b e : Entry}
  {level key key' : Nat}

theorem mem_tableIndices (i : Fin 512) : i ∈ tableIndices := by
  unfold tableIndices
  exact List.mem_finRange i

theorem mem_lowerIndices {i : Fin 512} : i ∈ lowerIndices ↔ i.val < 256 := by
  unfold lowerIndices
  rw [List.mem_filter, decide_eq_true_iff]
  exact and_iff_right (List.mem_finRange i)

theorem Shape.sits (hs : Shape cover kind ram) (ht : kind t = .table level key)
    (he : ram t i ≠ .unused) : Sits kind level (key * 512 + i.val) (ram t i) := by
  cases level with
  | zero => exact ((hs t i).leaf key ht).resolve_left he
  | succ level => exact ((hs t i).inner level key (.inl ht)).resolve_left he

theorem fits_of_sits (ht : kind t = .table level key)
    (he : e = .unused ∨ Sits kind level (key * 512 + i.val) e) :
    Fits cover kind t i e := by
  rcases he with rfl | he
  · exact fits_unused
  · cases level with
    | zero => exact fits_of_data ht he.1 he.2
    | succ level => exact fits_of_points (.inl ht) (.inr he)

theorem Sits.mono (h : Sits kind level key e) (hext : Extends kind kind') : Sits kind' level key e := by
  cases level with
  | zero => exact ⟨h.1, hext.data h.2⟩
  | succ level => exact ⟨h.1, h.2.1, hext.table h.2.2⟩

theorem cloneLeaf_present (e : Entry) :
    (cloneLeaf true e).flags.isPresent = e.flags.isPresent := by
  show ((e.flags.remove .writable).union .bit9).isPresent = _
  unfold Flags.isPresent Flags.union Flags.remove
  rw [BitVec.getLsbD_or, BitVec.getLsbD_and]
  exact (Bool.or_false _).trans (Bool.and_true _)

theorem Sits.cloneLeaf (h : Sits kind 0 key e) : Sits kind 0 key (cloneLeaf true e) :=
  ⟨(cloneLeaf_present e).trans h.1, h.2⟩

/-- The clone of an entry stays one as long as the tables stay. -/
theorem Cloned.mono (hs : Shape cover kind ram)
    (hsame : ∀ f l k, kind f = .table l k → ram' f = ram f) :
    ∀ {level key key' : Nat} {a b : Entry}, Sits kind level key a →
      (b ≠ .unused → Sits kind level key' b) → Cloned ram level a b → Cloned ram' level a b
  | 0, _, _, _, _, _, _, h => h
  | level + 1, key, key', a, b, ha, hb, h => by
    obtain ⟨hflags, hentries⟩ := h
    have hb' := hb (ne_unused_of_present (hflags ▸ ha.1))
    refine ⟨hflags, fun i => ?_⟩
    rw [hsame a.frame level key ha.2.2, hsame b.frame level key' hb'.2.2]
    rcases hentries i with hnone | ⟨hused, hclone⟩
    · exact .inl hnone
    · exact .inr ⟨hused, Cloned.mono hs hsame (Shape.sits hs ha.2.2 hused)
        (fun hne => Shape.sits hs hb'.2.2 hne) hclone⟩

theorem Twin.mono (hs : Shape cover kind ram) (hsame : ∀ f l k, kind f = .table l k → ram' f = ram f)
    (ha : a ≠ .unused → Sits kind level key a) (hb : b ≠ .unused → Sits kind level key' b)
    (h : Twin ram level a b) : Twin ram' level a b := by
  rcases h with hnone | ⟨hused, hclone⟩
  · exact .inl hnone
  · exact .inr ⟨hused, Cloned.mono hs hsame (ha hused) hb hclone⟩

theorem copies_refl (hs : Shape cover kind s.ram) (hfree : Free kind s.frames) :
    Copies cover changed kind s kind s :=
  ⟨hs, hfree, List.suffix_rfl, fun _ _ => rfl, fun _ _ => rfl⟩

theorem Copies.trans (h : Copies cover changed kind s kind' s')
    (h' : Copies cover changed kind' s' kind'' s'') : Copies cover changed kind s kind'' s'' := by
  refine ⟨h'.shape, h'.free, h'.left.trans h.left, fun f hf => ?_, fun f hf => ?_⟩
  · rw [h'.grown f fun hin => hf (h.left.subset hin), h.grown f hf]
  · rw [List.mem_append, not_or] at hf
    rw [h'.kept f, h.kept f]
    · rw [List.mem_append, not_or]
      exact hf
    · rw [List.mem_append, not_or]
      exact ⟨hf.1, fun hin => hf.2 (h.left.subset hin)⟩

theorem Copies.weaken (h : Copies cover [] kind s kind' s') (changed : List Frame) :
    Copies cover changed kind s kind' s' :=
  { h with kept := fun f hf => h.kept f fun hin => hf (List.mem_append_right _ hin) }

theorem notMem_of_used (hfree : Free kind s.frames) (hf : kind f ≠ .other) : f ∉ s.frames :=
  fun hin => hf (hfree.other f hin)

theorem Copies.ext (h : Copies cover changed kind s kind' s') (hfree : Free kind s.frames) :
    Extends kind kind' := fun f hf => h.grown f (notMem_of_used hfree hf)

theorem Copies.same (h : Copies cover [] kind s kind' s') (hfree : Free kind s.frames)
    (hf : kind f ≠ .other) : s'.ram f = s.ram f := h.kept f (notMem_of_used hfree hf)

/-! ## The code -/

/-- What the clone of an entry comes with. -/
def CloneOk (cover : Frame → Fin 512 → Prop) (kind : Frame → Kind) (s : PhysMem) (level key : Nat)
    (a b : Entry) (s' : PhysMem) : Prop :=
  ∃ kind', Copies cover [] kind s kind' s' ∧ Sits kind' level key b ∧ Cloned s'.ram level a b

/-- The loop, given what one call does. At the entries that are done the new table is a clone. -/
theorem cloneEntries_ends {step : Entry → PanicM PhysMem Entry} {src : Frame}
    (hstep : ∀ {kind : Frame → Kind} {s : PhysMem} {a : Entry} {key : Nat}, Shape cover kind s.ram →
      Free kind s.frames → Sits kind level key a →
      Ends (step a) s (CloneOk cover kind s level key a) fun _ => True) :
    ∀ (is : List (Fin 512)) (dst : Table) {kind : Frame → Kind} {s : PhysMem},
      Shape cover kind s.ram → Free kind s.frames → kind src = .table level key →
      (∀ i, i ∉ is → (dst i = .unused ∨ Sits kind level (key * 512 + i.val) (dst i)) ∧
        Twin s.ram level (s.ram src i) (dst i)) →
      Ends (cloneEntries step src is dst) s
        (fun table s' => ∃ kind', Copies cover [] kind s kind' s' ∧ ∀ i,
          (table i = .unused ∨ Sits kind' level (key * 512 + i.val) (table i)) ∧
            Twin s'.ram level (s'.ram src i) (table i))
        fun _ => True
  | [], dst, kind, s, hs, hfree, _, hdone =>
    ⟨kind, copies_refl hs hfree, fun i => hdone i (fun hin => nomatch hin)⟩
  | j :: is, dst, kind, s, hs, hfree, hsrc, hdone => by
    unfold cloneEntries
    rw [ends_bind, ends_get]
    have hrest : ∀ i, i ∉ is → i ≠ j → i ∉ j :: is := fun i hi hne hin =>
      (List.mem_cons.mp hin).elim hne hi
    by_cases hj : s.ram src j = .unused
    · rw [if_pos hj]
      refine cloneEntries_ends hstep is _ hs hfree hsrc fun i hi => ?_
      by_cases heq : i = j
      · subst heq
        rw [Function.update_self]
        exact ⟨.inl rfl, .inl ⟨hj, rfl⟩⟩
      · rw [Function.update_of_ne heq]
        exact hdone i (hrest i hi heq)
    · rw [if_neg hj, ends_bind]
      refine (hstep hs hfree (Shape.sits hs hsrc hj)).mono ?_ fun _ _ => trivial
      rintro b s' ⟨kind', hcopies, hsits, hclone⟩
      have hext := Copies.ext hcopies hfree
      have hne : kind src ≠ .other := ne_other_of_table hsrc
      have hsame : s'.ram src = s.ram src := Copies.same hcopies hfree hne
      refine (cloneEntries_ends hstep is _ hcopies.shape hcopies.free ((hext src hne).trans hsrc)
        fun i hi => ?_).mono ?_ fun _ _ => trivial
      · rw [hsame]
        by_cases heq : i = j
        · subst heq
          rw [Function.update_self]
          exact ⟨.inr hsits, .inr ⟨hj, hclone⟩⟩
        · rw [Function.update_of_ne heq]
          obtain ⟨hfits, htwin⟩ := hdone i (hrest i hi heq)
          refine ⟨hfits.imp id fun h => Sits.mono h hext, Twin.mono hs (fun f l k hf => ?_)
            (fun h => Shape.sits hs hsrc h) (fun h => hfits.resolve_left h) htwin⟩
          exact Copies.same hcopies hfree (ne_other_of_table hf)
      · rintro table s'' ⟨kind'', hcopies', htable⟩
        exact ⟨kind'', Copies.trans hcopies hcopies', htable⟩

/-- The new table is linked: its frame, which nobody knew, becomes a table. -/
theorem copies_setTable {frames : List Frame} {table : Table} (hframes : s.frames = f :: frames)
    (hfree : Free kind s.frames)
    (h : Copies cover [] kind { s with frames := frames } kind' s')
    (htable : ∀ i, table i = .unused ∨ Sits kind' level (key * 512 + i.val) (table i)) :
    Copies cover [] kind s (Function.update kind' f (.table level key))
      { s' with ram := s'.ram.setTable f table, writes := s'.writes ++ [frameSpan f] } := by
  have hfree' : Free kind (f :: frames) := hframes ▸ hfree
  have hnotin : f ∉ frames := hfree'.head_notMem
  have hother : kind' f = .other := (h.grown f hnotin).trans (hfree'.other f List.mem_cons_self)
  have hext := extends_update hother (.table level key)
  constructor
  case shape =>
    show Shape cover _ (s'.ram.setTable f table)
    refine h.shape.change hext fun t i => ?_
    unfold Ram.setTable
    by_cases ht : t = f
    · subst ht
      right
      rw [Function.update_self]
      exact fits_of_sits (Function.update_self ..) ((htable i).imp id fun hi => Sits.mono hi hext)
    · rw [Function.update_of_ne ht, Function.update_of_ne ht]
      exact .inl ⟨rfl, rfl⟩
  case free =>
    refine ⟨h.free.nodup, fun g hg => ?_⟩
    rw [Function.update_of_ne, h.free.other g hg]
    rintro rfl
    exact hnotin (h.left.subset hg)
  case left =>
    rw [hframes]
    exact h.left.trans (List.suffix_cons f frames)
  case grown =>
    intro g hg
    rw [hframes, List.mem_cons, not_or] at hg
    rw [Function.update_of_ne hg.1, h.grown g hg.2]
  case kept =>
    intro g hg
    rw [hframes, List.nil_append, List.mem_cons, not_or] at hg
    show s'.ram.setTable f table g = s.ram g
    unfold Ram.setTable
    rw [Function.update_of_ne hg.1, h.kept g hg.2]

theorem cloneTableOver_ends {indices : List (Fin 512)} (hall : ∀ i, i ∈ indices) (level : Nat) :
    ∀ {kind : Frame → Kind} {s : PhysMem} {a : Entry} {key : Nat}, Shape cover kind s.ram →
      Free kind s.frames → Sits kind level key a →
      Ends (cloneTableOver indices true level a) s (CloneOk cover kind s level key a)
        fun _ => True := by
  induction level with
  | zero =>
    intro kind s a key hs hfree ha
    unfold cloneTableOver
    rw [ends_pure]
    exact ⟨kind, copies_refl hs hfree, Sits.cloneLeaf ha, rfl⟩
  | succ level ih =>
    intro kind s a key hs hfree ha
    obtain ⟨hpresent, hhuge, htable⟩ := ha
    have hne : kind a.frame ≠ .other := ne_other_of_table htable
    unfold cloneTableOver
    rw [ends_expect_allocateFrame]
    refine ⟨fun _ => trivial, fun f frames hframes => ?_⟩
    have hfree' : Free kind (f :: frames) := hframes ▸ hfree
    rw [ends_bind, ends_ensure]
    refine ⟨fun _ => ?_, fun _ => trivial⟩
    rw [ends_bind, ends_ensure]
    refine ⟨fun _ => ?_, fun _ => trivial⟩
    rw [ends_bind, ends_get, ends_bind]
    refine (cloneEntries_ends ih _ _ (s := { s with frames := frames })
      hs hfree'.tail htable fun i hi => absurd (hall i) hi).mono ?_ fun _ _ => trivial
    rintro table s' ⟨kind', hcopies, hentries⟩
    rw [ends_bind, ends_setTable, ends_pure]
    have hlinked := copies_setTable hframes hfree hcopies fun i => (hentries i).1
    have hother : kind' f = .other :=
      (hcopies.grown f hfree'.head_notMem).trans (hfree'.other f List.mem_cons_self)
    have hkind' : kind' a.frame = .table level key := (Copies.ext hcopies hfree'.tail _ hne).trans htable
    have hapart : ∀ g l k, kind' g = .table l k → g ≠ f := by
      rintro g l k hg rfl
      rw [hother] at hg
      cases hg
    refine ⟨_, hlinked, ⟨hpresent, hhuge, Function.update_self ..⟩, rfl, fun i => ?_⟩
    show Twin (s'.ram.setTable f table) level (s'.ram.setTable f table a.frame i)
      (s'.ram.setTable f table f i)
    have hsame : ∀ g l k, kind' g = .table l k → s'.ram.setTable f table g = s'.ram g :=
      fun g l k hg => Function.update_of_ne (hapart g l k hg) _ _
    rw [hsame a.frame level key hkind']
    unfold Ram.setTable at hsame ⊢
    rw [Function.update_self]
    obtain ⟨hfits, htwin⟩ := hentries i
    exact Twin.mono hcopies.shape hsame (fun h => Shape.sits hcopies.shape hkind' h)
      (fun h => hfits.resolve_left h) htwin

/-! ## The lower half -/

theorem Shape.sits_root (hs : Shape cover kind ram) (ht : kind t = .root) (hi : cover t i)
    (he : ram t i ≠ .unused) : Sits kind 3 i.val (ram t i) := by
  have h := ((hs t i).inner 2 0 (.inr ⟨rfl, rfl, ht, hi⟩)).resolve_left he
  rwa [Nat.zero_mul, Nat.zero_add] at h

theorem copies_setEntry (hs : Shape cover kind s.ram) (hfree : Free kind s.frames)
    (ht : kind t = .root) (hi : cover t i) (he : Sits kind 3 i.val e) :
    Copies cover [t] kind s kind
      { s with ram := s.ram.set t i e, writes := s.writes ++ [entrySpan t i] } := by
  have hfits : Fits cover kind t i e := by
    refine fits_of_points (.inr ⟨rfl, rfl, ht, hi⟩) (.inr ?_)
    rwa [Nat.zero_mul, Nat.zero_add]
  refine ⟨hs.set hfits, hfree, List.suffix_rfl, fun _ _ => rfl, fun f hf => ?_⟩
  refine Ram.set_of_frame_ne ?_ i e
  rintro rfl
  exact hf List.mem_cons_self

/-- The loop. An entry is still to come and unused in the child, or it is done. -/
theorem cloneLowerHalf_ends {src dst : Frame} (hne : src ≠ dst)
    (hsrc : ∀ i, i.val < 256 → cover src i) (hdst : ∀ i, i.val < 256 → cover dst i) :
    ∀ (is : List (Fin 512)) {kind : Frame → Kind} {s : PhysMem}, (∀ i ∈ is, i.val < 256) →
      Shape cover kind s.ram → Free kind s.frames → kind src = .root → kind dst = .root →
      (∀ i, i.val < 256 →
        (i ∈ is ∧ s.ram dst i = .unused) ∨ Twin s.ram 3 (s.ram src i) (s.ram dst i)) →
      Ends (cloneLowerHalf src dst is) s
        (fun _ s' => ∃ kind', Copies cover [dst] kind s kind' s' ∧
          (∀ i, 256 ≤ i.val → s'.ram dst i = s.ram dst i) ∧
          ∀ i, i.val < 256 → Twin s'.ram 3 (s'.ram src i) (s'.ram dst i))
        fun _ => True
  | [], kind, s, _, hs, hfree, _, _, hdone =>
    ⟨kind, copies_refl hs hfree, fun _ _ => rfl,
      fun i hi => (hdone i hi).resolve_left fun h => nomatch h.1⟩
  | j :: is, kind, s, hlow, hs, hfree, hrs, hrd, hdone => by
    have hj : j.val < 256 := hlow j List.mem_cons_self
    have hlow' : ∀ i ∈ is, i.val < 256 := fun i hi => hlow i (List.mem_cons_of_mem _ hi)
    unfold cloneLowerHalf
    rw [ends_bind, ends_get]
    by_cases hused : s.ram src j = .unused
    · rw [if_pos hused]
      refine cloneLowerHalf_ends hne hsrc hdst is hlow' hs hfree hrs hrd fun i hi => ?_
      rcases hdone i hi with ⟨hin, hunused⟩ | htwin
      · rcases List.mem_cons.mp hin with rfl | hin
        · exact .inr (.inl ⟨hused, hunused⟩)
        · exact .inl ⟨hin, hunused⟩
      · exact .inr htwin
    · rw [if_neg hused, ends_bind]
      have hsits := Shape.sits_root hs hrs (hsrc j hj) hused
      refine (cloneTableOver_ends mem_tableIndices 3 hs hfree hsits).mono ?_ fun _ _ => trivial
      rintro b s₁ ⟨kind₁, hcopies, hb, hclone⟩
      have hext := Copies.ext hcopies hfree
      have hrs₁ : kind₁ src = .root := hext.root hrs
      have hrd₁ : kind₁ dst = .root := hext.root hrd
      have hsrc₁ : s₁.ram src = s.ram src := Copies.same hcopies hfree (ne_other_of_root hrs)
      have hdst₁ : s₁.ram dst = s.ram dst := Copies.same hcopies hfree (ne_other_of_root hrd)
      have hstep := Copies.trans (Copies.weaken hcopies [dst])
        (copies_setEntry hcopies.shape hcopies.free hrd₁ (hdst j hj) hb)
      have hsame : ∀ f l k, kind₁ f = .table l k → s₁.ram.set dst j b f = s₁.ram f := by
        intro f l k hf
        refine Ram.set_of_frame_ne ?_ j b
        rintro rfl
        rw [hrd₁] at hf
        cases hf
      rw [ends_bind, ends_setEntry]
      refine (cloneLowerHalf_ends hne hsrc hdst is hlow' hstep.shape hstep.free hrs₁ hrd₁ ?_).mono ?_
        fun _ _ => trivial
      · intro i hi
        show (i ∈ is ∧ s₁.ram.set dst j b dst i = .unused) ∨ Twin (s₁.ram.set dst j b) 3
          (s₁.ram.set dst j b src i) (s₁.ram.set dst j b dst i)
        rw [Ram.set_of_frame_ne hne j b, hsrc₁]
        by_cases heq : i = j
        · subst heq
          rw [Ram.set_self]
          refine .inr (.inr ⟨hused, Cloned.mono hcopies.shape hsame (Sits.mono hsits hext)
            (fun _ => hb) hclone⟩)
        · rw [Ram.set_of_ne (fun h => heq h.2) b, hdst₁]
          rcases hdone i hi with ⟨hin, hunused⟩ | htwin
          · exact .inl ⟨(List.mem_cons.mp hin).resolve_left heq, hunused⟩
          · right
            have hsits_src : s.ram src i ≠ .unused → Sits kind 3 i.val (s.ram src i) :=
              Shape.sits_root hs hrs (hsrc i hi)
            have hsits_dst : s.ram dst i ≠ .unused → Sits kind 3 i.val (s.ram dst i) :=
              Shape.sits_root hs hrd (hdst i hi)
            refine Twin.mono hcopies.shape hsame (fun h => Sits.mono (hsits_src h) hext)
              (fun h => Sits.mono (hsits_dst h) hext) ?_
            exact Twin.mono hs (fun f l k hf => Copies.same hcopies hfree (ne_other_of_table hf))
              hsits_src hsits_dst htwin
      · rintro _ s' ⟨kind', hcopies', hupper, htwins⟩
        refine ⟨kind', Copies.trans hstep hcopies', fun i hi => ?_, htwins⟩
        rw [hupper i hi]
        show s₁.ram.set dst j b dst i = s.ram dst i
        rw [Ram.set_of_ne (by rintro ⟨-, rfl⟩; omega) b, hdst₁]

/-! ## `Process::fork` -/

/-- What `fork` leaves of a process with the PML4 `src`: the frames that were in use are as they were, the
lower half of the child is a clone, and its upper half is shared. -/
structure Forked (cover : Frame → Fin 512 → Prop) (kind : Frame → Kind) (s : PhysMem) (src : Frame)
    (kind' : Frame → Kind) (s' : PhysMem) (child : Frame) : Prop where
  copies : Copies cover [] kind s kind' s'
  fresh : child ∈ s.frames
  root : kind' child = .root
  upper : ∀ i, 256 ≤ i.val → s'.ram child i = s.ram src i
  twins : ∀ i, i.val < 256 → Twin s'.ram 3 (s'.ram src i) (s'.ram child i)

/-- The last step of `clone_user_mappings_cow`: the entries of the upper half are those of `src`. -/
theorem forked_of_copies {src child : Frame} {ws : List Span} (hcopies : Copies cover [] kind s kind' s')
    (hfresh : child ∈ s.frames) (hfree : Free kind s.frames) (hsrc : kind src = .root)
    (hroot : kind' child = .root) (hlow : ∀ f i, f = child ∨ f = src → i.val < 256 → cover f i)
    (hup : ∀ i, 256 ≤ i.val → cover child i → cover src i)
    (htwins : ∀ i, i.val < 256 → Twin s'.ram 3 (s'.ram src i) (s'.ram child i)) :
    Forked cover kind s src kind' { s' with
      ram := s'.ram.setTable child fun i => if 256 ≤ i.val then s'.ram src i else s'.ram child i
      writes := ws } child := by
  have hin : src ∉ s.frames := notMem_of_used hfree (ne_other_of_root hsrc)
  have hne : src ≠ child := fun heq => hin (heq ▸ hfresh)
  have hsrc' : kind' src = .root := (hcopies.grown src hin).trans hsrc
  generalize htable : (fun i : Fin 512 => if 256 ≤ i.val then s'.ram src i else s'.ram child i) = table
  have hupper : ∀ i : Fin 512, 256 ≤ i.val → table i = s'.ram src i := fun i hi => by
    rw [← htable]
    exact if_pos hi
  have hlower : ∀ i : Fin 512, i.val < 256 → table i = s'.ram child i := fun i hi => by
    rw [← htable]
    exact if_neg (by omega)
  have hself : s'.ram.setTable child table child = table := Function.update_self ..
  have hothers : ∀ g, g ≠ child → s'.ram.setTable child table g = s'.ram g := fun g hg =>
    Function.update_of_ne hg _ _
  constructor
  case copies =>
    constructor
    case shape =>
      refine hcopies.shape.change (.refl kind') fun t i => ?_
      show kind' t = kind' t ∧ s'.ram.setTable child table t i = _ ∨
        Fits cover kind' t i (s'.ram.setTable child table t i)
      by_cases ht : t = child
      · subst ht
        rw [hself]
        by_cases hi : i.val < 256
        · exact .inl ⟨rfl, hlower i hi⟩
        · rw [hupper i (by omega)]
          right
          constructor
          case inner =>
            rintro level key (hin | ⟨hl, rfl, -, hc⟩)
            · rw [hroot] at hin
              cases hin
            · cases hl
              exact (hcopies.shape src i).inner 2 0 (.inr ⟨rfl, rfl, hsrc', hup i (by omega) hc⟩)
          case leaf =>
            intro key h
            rw [hroot] at h
            cases h
      · rw [hothers t ht]
        exact .inl ⟨rfl, rfl⟩
    case free => exact hcopies.free
    case left => exact hcopies.left
    case grown => exact hcopies.grown
    case kept =>
      intro g hg
      exact (hothers g fun heq => hg (heq ▸ hfresh)).trans (hcopies.kept g hg)
  case fresh => exact hfresh
  case root => exact hroot
  case upper =>
    intro i hi
    show s'.ram.setTable child table child i = s.ram src i
    rw [hself, hupper i hi, hcopies.kept src hin]
  case twins =>
    intro i hi
    show Twin (s'.ram.setTable child table) 3 (s'.ram.setTable child table src i)
      (s'.ram.setTable child table child i)
    rw [hself, hlower i hi, hothers src hne]
    refine Twin.mono hcopies.shape (fun g l k hg => hothers g ?_)
      (Shape.sits_root hcopies.shape hsrc' (hlow src i (.inr rfl) hi))
      (Shape.sits_root hcopies.shape hroot (hlow child i (.inl rfl) hi)) (htwins i hi)
    rintro rfl
    rw [hroot] at hg
    cases hg

theorem fork_ends {cr3 : Frame} {process : Process} (hs : Shape cover kind s.ram)
    (hfree : Free kind s.frames) (hcr3 : kind cr3 = .root) (hsrc : kind process.pml4 = .root)
    (hlow : ∀ f i, kind f = .other ∨ f = process.pml4 → i.val < 256 → cover f i)
    (hup : ∀ f i, kind f = .other → 256 ≤ i.val → cover f i → cover cr3 i ∧ cover process.pml4 i) :
    Ends (process.fork cr3) s
      (fun child s' => ∃ kind', Forked cover kind s process.pml4 kind' s' child.pml4)
      fun _ => True := by
  generalize hp : process.pml4 = src at *
  unfold Process.fork
  rw [ends_bind, ends_createProcessPml4]
  refine ⟨fun _ => trivial, fun f frames hframes => ?_⟩
  have hfree' : Free kind (f :: frames) := hframes ▸ hfree
  have hf : kind f = .other := hfree'.other f List.mem_cons_self
  have hne : src ≠ f := by
    rintro rfl
    rw [hf] at hsrc
    cases hsrc
  have hs₁ := shape_newPml4 hs hf fun i hi hc _ => .inr ⟨rfl, rfl, hcr3, (hup f i hf hi hc).1⟩
  have hroot₁ : Function.update kind f .root f = .root := Function.update_self ..
  have hsrc₁ : Function.update kind f .root src = .root := (Function.update_of_ne hne _ _).trans hsrc
  have hempty : ∀ i : Fin 512, i.val < 256 →
      s.ram.setTable f (newPml4 s.ram cr3 f) f i = .unused := by
    intro i hi
    unfold Ram.setTable newPml4
    rw [Function.update_self, if_neg (by omega)]
  unfold cloneUserMappingsCow
  rw [hp, ends_bind, ends_bind]
  refine (cloneLowerHalf_ends hne (fun i hi => hlow src i (.inr rfl) hi)
    (fun i hi => hlow f i (.inl hf) hi) lowerIndices (fun i hi => mem_lowerIndices.mp hi) hs₁
    (hfree'.use .root) hsrc₁ hroot₁
    fun i hi => .inl ⟨mem_lowerIndices.mpr hi, hempty i hi⟩).mono ?_ fun _ _ => trivial
  rintro _ s₂ ⟨kind₂, hlowerHalf, -, htwins⟩
  rw [ends_bind, ends_get, ends_setTable, ends_pure]
  have hchild : Process.pml4 { process with pml4Frame := f.toNat } = f := pml4_of_toNat f _ _
  rw [hchild]
  -- from the state before the PML4 of the child was made
  have hcopies : Copies cover [] kind s kind₂ s₂ := by
    constructor
    case shape => exact hlowerHalf.shape
    case free => exact hlowerHalf.free
    case left =>
      rw [hframes]
      exact hlowerHalf.left.trans (List.suffix_cons f frames)
    case grown =>
      intro g hg
      rw [hframes, List.mem_cons, not_or] at hg
      rw [hlowerHalf.grown g hg.2, Function.update_of_ne hg.1]
    case kept =>
      intro g hg
      rw [List.nil_append, hframes, List.mem_cons, not_or] at hg
      rw [hlowerHalf.kept g]
      · exact Function.update_of_ne hg.1 _ _
      · rw [List.mem_append, List.mem_singleton, not_or]
        exact hg
  refine ⟨kind₂, forked_of_copies hcopies (hframes ▸ List.mem_cons_self) hfree hsrc
    ((Copies.ext hlowerHalf (hfree'.use .root)).root hroot₁) (fun g i hg => ?_)
    (fun i hi hc => (hup f i hf hi hc).2) htwins⟩
  rcases hg with rfl | rfl
  · exact hlow g i (.inl hf)
  · exact hlow g i (.inr rfl)

/-! ## Walks in the child -/

theorem leafOf_cloneLeaf (page : Nat) (e : Entry) :
    leafOf 0 page (cloneLeaf true e) = cowed (leafOf 0 page e) := by
  have hwritable : ((e.flags.remove .writable).union .bit9).isWritable = false := by
    unfold Flags.isWritable Flags.union Flags.remove
    rw [BitVec.getLsbD_or, BitVec.getLsbD_and]
    exact (Bool.or_false _).trans (Bool.and_false _)
  have huser : ((e.flags.remove .writable).union .bit9).isUser = e.flags.isUser := by
    unfold Flags.isUser Flags.union Flags.remove
    rw [BitVec.getLsbD_or, BitVec.getLsbD_and]
    exact (Bool.or_false _).trans (Bool.and_true _)
  unfold leafOf cowed cloneLeaf
  rw [if_pos rfl]
  dsimp only
  rw [hwritable, huser]

theorem under_cowed (e : Entry) (tr : Translation) : (cowed tr).under e = cowed (tr.under e) := by
  unfold cowed Translation.under
  rw [Bool.and_false]

/-- Tables with a shape are trees. -/
theorem Sits.tree (hs : Shape cover kind ram) : ∀ {level key : Nat} {e : Entry}, Sits kind level key e →
    Tree ram level e
  | 0, _, _, _ => trivial
  | level + 1, key, e, ⟨hp, hh, hk⟩ => by
    refine ⟨hp, hh, fun i => ?_⟩
    by_cases hi : ram e.frame i = .unused
    · exact .inl hi
    · exact .inr (Sits.tree hs (Shape.sits hs hk hi))

/-- A page of the child is the page of the parent, not writable. -/
theorem walk_twin {page : Nat} : ∀ {level : Nat} {t t' : Frame},
    (ram t (index level page) = .unused ∨ Tree ram level (ram t (index level page))) →
      Twin ram level (ram t (index level page)) (ram t' (index level page)) →
      walk ram level t' page = (walk ram level t page).map cowed
  | 0, t, t', _, h => by
    unfold walk
    rcases h with ⟨ha, hb⟩ | ⟨-, hb⟩
    · rw [ha, hb]
      rfl
    · rw [show ram t' (index 0 page) = cloneLeaf true (ram t (index 0 page)) from hb]
      dsimp only
      rw [cloneLeaf_present]
      by_cases hp : (ram t (index 0 page)).flags.isPresent = true
      · rw [if_pos hp, if_pos hp, leafOf_cloneLeaf]
        rfl
      · rw [if_neg hp, if_neg hp]
        rfl
  | level + 1, t, t', htree, h => by
    rcases h with ⟨ha, hb⟩ | ⟨ha, hflags, hentries⟩
    · unfold walk
      rw [ha, hb]
      rfl
    · obtain ⟨hp, hh, hbelow⟩ := htree.resolve_left ha
      have hwalk := walk_twin (hbelow (index level page)) (hentries (index level page))
      rw [walk_through rfl hp hh, walk_through rfl (hflags ▸ hp) (hflags ▸ hh), hwalk, Option.map_map,
        Option.map_map]
      congr 1
      funext tr
      have hunder : ∀ tr, Translation.under (ram t' (index (level + 1) page)) tr =
          Translation.under (ram t (index (level + 1) page)) tr := by
        intro tr
        unfold Translation.under
        rw [hflags]
      exact (hunder _).trans (under_cowed _ tr)

end CloneLemmas

end Turnix
