import Turnix.CloneTables

/-!
# A clone of any address space

`CloneTables` follows `fork` on tables that the kernel has built, frame by frame. Here the source is any
tree of tables: its tables may be shared between entries and its leaves may map anything, new frames
included. All that is asked of the allocator is that its frames are distinct and no tables of the source.

The tables of the source stay (`Later`), and every entry that is done is a clone whose tables all come from
the allocator (`Done`); both survive the steps that follow, because a step writes to frames that were still
free and to the new PML4 only.
-/

namespace Turnix

open Lib Lib.Paging PanicM

/-- The frame is a table of the lower half, below the PML4. -/
def LowerTable (ram : Ram) (pml4 f : Frame) : Prop :=
  ∃ i : Fin 512, i.val < 256 ∧ ram pml4 i ≠ .unused ∧ TableOf ram 3 (ram pml4 i) f

/-- The lower half is a tree of tables: the used entries above the leaves are present and no large pages. -/
def LowerTree (ram : Ram) (pml4 : Frame) : Prop :=
  ∀ i : Fin 512, i.val < 256 → ram pml4 i = .unused ∨ Tree ram 3 (ram pml4 i)

/-- The page is mapped as before, and read-only. -/
structure ReadOnlyCopy (tr tr' : Translation) : Prop where
  frame : tr'.frame = tr.frame
  readOnly : tr'.flags.isWritable = false
  present : tr'.flags.isPresent = tr.flags.isPresent
  userAccessible : tr'.flags.isUser = tr.flags.isUser
  noExecute : tr'.flags.isNoExecute = tr.flags.isNoExecute
  /-- the rights that all levels allow -/
  rights : tr'.writable = false ∧ tr'.user = tr.user

/-- In `s'`, `dst` is a clone of the address space that `src` had in `s`. -/
structure ClonedSpace (src dst : Frame) (s s' : PhysMem) : Prop where
  mapped : ∀ page < 2 ^ 35, (walk s'.ram 3 dst page = none ↔ walk s.ram 3 src page = none)
  copied : ∀ page < 2 ^ 35, ∀ tr, walk s.ram 3 src page = some tr →
    ∃ tr', walk s'.ram 3 dst page = some tr' ∧ ReadOnlyCopy tr tr'
  upper : ∀ i : Fin 512, 256 ≤ i.val → s'.ram dst i = s.ram src i
  /-- the PML4 and the tables of the source stay -/
  source : ∀ f, f = src ∨ LowerTable s.ram src f → s'.ram f = s.ram f
  /-- every table of the clone comes from the allocator and is no table of the source -/
  tables : ∀ f, LowerTable s'.ram dst f → f ∈ s.frames ∧ f ≠ src ∧ ¬ LowerTable s'.ram src f

open CloneLemmas

namespace FaithfulLemmas

variable {dst src : Frame} {pool : List Frame} {s s' s'' : PhysMem} {level : Nat} {a b : Entry}
  {ram ram' : Ram}

theorem cowed_readOnly (tr : Translation) : ReadOnlyCopy tr (cowed tr) := by
  refine ⟨rfl, ?_, ?_, ?_, ?_, rfl, rfl⟩ <;>
    simp [cowed, Flags.isWritable, Flags.isPresent, Flags.isUser, Flags.isNoExecute, Flags.union,
      Flags.remove, Flags.writable, Flags.bit9]

/-! ## What stays -/

/-- A clone is not unused. -/
theorem Cloned.ne_unused (htree : Tree ram level a) (h : Cloned ram level a b) : b ≠ .unused := by
  cases level with
  | zero =>
    rintro rfl
    -- the mark of a copy-on-write page is set
    have hmark := congrArg (fun e : Entry => e.flags.low.getLsbD 9) h
    simp [cloneLeaf, Flags.union, Flags.bit9, Entry.unused, Flags.empty] at hmark
  | succ level => exact ne_unused_of_present (h.1 ▸ htree.1)

/-- The clone of an entry depends on the tables of both only. -/
theorem Cloned.congr : ∀ {level : Nat} {a b : Entry}, Tree ram level a →
    (∀ f, TableOf ram level a f → ram' f = ram f) → (∀ f, TableOf ram level b f → ram' f = ram f) →
      Cloned ram level a b → Cloned ram' level a b
  | 0, _, _, _, _, _, h => h
  | level + 1, a, b, htree, ha, hb, ⟨hflags, hentries⟩ => by
    refine ⟨hflags, fun i => ?_⟩
    rw [ha _ .root, hb _ .root]
    rcases hentries i with hnone | ⟨hused, hclone⟩
    · exact .inl hnone
    · have hbelow := (htree.2.2 i).resolve_left hused
      exact .inr ⟨hused, Cloned.congr hbelow (fun f hf => ha f (.below hused hf))
        (fun f hf => hb f (.below (Cloned.ne_unused hbelow hclone) hf)) hclone⟩

/-- From `s` to `s'` only the PML4 `dst` was written, and frames that were free. -/
structure Later (dst : Frame) (s s' : PhysMem) : Prop where
  left : s'.frames <:+ s.frames
  kept : ∀ g, g ∉ s.frames → g ≠ dst → s'.ram g = s.ram g

/-- `a` is an entry of the source: the code does not write to its tables. -/
structure Source (dst : Frame) (s : PhysMem) (level : Nat) (a : Entry) : Prop where
  tree : Tree s.ram level a
  apart : ∀ f, TableOf s.ram level a f → f ∉ s.frames ∧ f ≠ dst

/-- `b` is the clone of `a`, and its tables were taken from the pool. -/
structure Done (pool : List Frame) (dst : Frame) (s : PhysMem) (level : Nat) (a b : Entry) : Prop where
  source : a ≠ .unused → Source dst s level a
  twin : Twin s.ram level a b
  owned : b ≠ .unused → ∀ f, TableOf s.ram level b f → f ∈ pool ∧ f ∉ s.frames

theorem later_refl (dst : Frame) (s : PhysMem) : Later dst s s := ⟨List.suffix_rfl, fun _ _ _ => rfl⟩

theorem Later.trans (h : Later dst s s') (h' : Later dst s' s'') : Later dst s s'' :=
  ⟨h'.left.trans h.left, fun g hg hne =>
    (h'.kept g (fun hin => hg (h.left.subset hin)) hne).trans (h.kept g hg hne)⟩

theorem Source.later (h : Source dst s level a) (hlater : Later dst s s') : Source dst s' level a := by
  have hsame : ∀ f, TableOf s.ram level a f → s'.ram f = s.ram f := fun f hf =>
    hlater.kept f (h.apart f hf).1 (h.apart f hf).2
  refine ⟨h.tree.congr hsame, fun f hf => ?_⟩
  obtain ⟨hfree, hne⟩ := h.apart f (hf.congr hsame)
  exact ⟨fun hin => hfree (hlater.left.subset hin), hne⟩

/-- An entry that is done stays done as long as the tables of both sides stay. -/
theorem Done.congr (h : Done pool dst s level a b) (hleft : s'.frames ⊆ s.frames)
    (ha : a ≠ .unused → ∀ f, TableOf s.ram level a f → s'.ram f = s.ram f)
    (hb : b ≠ .unused → ∀ f, TableOf s.ram level b f → s'.ram f = s.ram f) :
    Done pool dst s' level a b := by
  refine ⟨fun hused => ?_, ?_, fun hused f hf => ?_⟩
  · have hsource := h.source hused
    refine ⟨hsource.tree.congr (ha hused), fun f hf => ?_⟩
    obtain ⟨hfree, hne⟩ := hsource.apart f (hf.congr (ha hused))
    exact ⟨fun hin => hfree (hleft hin), hne⟩
  · rcases h.twin with hnone | ⟨hused, hclone⟩
    · exact .inl hnone
    · have htree := (h.source hused).tree
      exact .inr ⟨hused, Cloned.congr htree (ha hused) (hb (Cloned.ne_unused htree hclone)) hclone⟩
  · obtain ⟨hin, hfree⟩ := h.owned hused f (hf.congr (hb hused))
    exact ⟨hin, fun hin' => hfree (hleft hin')⟩

theorem Done.later (hdst : dst ∉ pool) (h : Done pool dst s level a b) (hlater : Later dst s s') :
    Done pool dst s' level a b := by
  refine h.congr hlater.left.subset (fun hused f hf => ?_) fun hused f hf => ?_
  · obtain ⟨hfree, hne⟩ := (h.source hused).apart f hf
    exact hlater.kept f hfree hne
  · obtain ⟨hin, hfree⟩ := h.owned hused f hf
    refine hlater.kept f hfree ?_
    rintro rfl
    exact hdst hin

/-! ## The code -/

/-- What one call of `clone_table_level` does: it leaves the PML4 alone as well. -/
def CloneMade (pool : List Frame) (dst : Frame) (s : PhysMem) (level : Nat) (a b : Entry)
    (s' : PhysMem) : Prop :=
  Later dst s s' ∧ s'.ram dst = s.ram dst ∧ Done pool dst s' level a b

/-- The loop, given what one call does. -/
theorem cloneEntries_made {step : Entry → PanicM PhysMem Entry} (hdst : dst ∉ pool)
    (hstep : ∀ {s : PhysMem} {a : Entry}, s.frames <:+ pool → s.frames.Nodup → a ≠ .unused →
      Source dst s level a → Ends (step a) s (CloneMade pool dst s level a) fun s' => s'.frames = []) :
    ∀ (is : List (Fin 512)) (table : Table) {s : PhysMem}, s.frames <:+ pool → s.frames.Nodup →
      src ∉ s.frames → src ≠ dst → (∀ i, s.ram src i ≠ .unused → Source dst s level (s.ram src i)) →
      (∀ i, i ∉ is → Done pool dst s level (s.ram src i) (table i)) →
      Ends (cloneEntries step src is table) s
        (fun table s' => Later dst s s' ∧ s'.ram dst = s.ram dst ∧
          ∀ i, Done pool dst s' level (s.ram src i) (table i))
        fun s' => s'.frames = []
  | [], table, s, _, _, _, _, _, hdone =>
    ⟨later_refl dst s, rfl, fun i => hdone i List.not_mem_nil⟩
  | j :: is, table, s, hpool, hnodup, hsrc, hne, hsource, hdone => by
    unfold cloneEntries
    rw [ends_bind, ends_get]
    have hrest : ∀ i, i ∉ is → i ≠ j → i ∉ j :: is := fun i hi hij hin =>
      (List.mem_cons.mp hin).elim hij hi
    by_cases hj : s.ram src j = .unused
    · rw [if_pos hj]
      refine cloneEntries_made hdst hstep is _ hpool hnodup hsrc hne hsource fun i hi => ?_
      by_cases heq : i = j
      · subst heq
        rw [Function.update_self, hj]
        exact ⟨fun h => absurd rfl h, .inl ⟨rfl, rfl⟩, fun h => absurd rfl h⟩
      · rw [Function.update_of_ne heq]
        exact hdone i (hrest i hi heq)
    · rw [if_neg hj, ends_bind]
      refine (hstep hpool hnodup hj (hsource j hj)).mono ?_ fun _ h => h
      rintro b s₁ ⟨hlater, hroot, hmade⟩
      have hsame : s₁.ram src = s.ram src := hlater.kept src hsrc hne
      refine (cloneEntries_made hdst hstep is _ (hlater.left.trans hpool)
        (hnodup.sublist hlater.left.sublist) (fun hin => hsrc (hlater.left.subset hin)) hne
        (fun i hi => ?_) fun i hi => ?_).mono ?_ fun _ h => h
      · rw [hsame] at hi ⊢
        exact (hsource i hi).later hlater
      · rw [hsame]
        by_cases heq : i = j
        · subst heq
          rw [Function.update_self]
          exact hmade
        · rw [Function.update_of_ne heq]
          exact (hdone i (hrest i hi heq)).later hdst hlater
      · rintro table s₂ ⟨hlater₂, hroot₂, hall⟩
        rw [hsame] at hall
        exact ⟨hlater.trans hlater₂, hroot₂.trans hroot, hall⟩

/-- The table that the loop has filled is stored in the frame `f`, which is taken for that. -/
theorem made_setTable {f : Frame} {frames : List Frame} {table : Table} (hframes : s.frames = f :: frames)
    (hpool : s.frames <:+ pool) (hnodup : s.frames.Nodup) (hdst : dst ∉ pool) (ha : a ≠ .unused)
    (hsource : Source dst s (level + 1) a) (hlater : Later dst { s with frames := frames } s')
    (hroot : s'.ram dst = s.ram dst)
    (hentries : ∀ i, Done frames dst s' level (s.ram a.frame i) (table i)) :
    CloneMade pool dst s (level + 1) a ⟨a.flags, f⟩
      { s' with ram := s'.ram.setTable f table, writes := s'.writes ++ [frameSpan f] } := by
  have hfmem : f ∈ s.frames := hframes ▸ List.mem_cons_self
  have hsub : frames ⊆ s.frames := hframes ▸ List.subset_cons_self f frames
  have hfrest : f ∉ frames := (List.nodup_cons.mp (hframes ▸ hnodup)).1
  have hfdst : dst ≠ f := by
    rintro rfl
    exact hdst (hpool.subset hfmem)
  have hfinal : Later dst s
      { s' with ram := s'.ram.setTable f table, writes := s'.writes ++ [frameSpan f] } := by
    refine ⟨?_, fun g hg hne => ?_⟩
    · rw [hframes]
      exact hlater.left.trans (List.suffix_cons f frames)
    · have hgf : g ≠ f := by
        rintro rfl
        exact hg hfmem
      exact (Ram.setTable_of_ne hgf table).trans (hlater.kept g (fun hin => hg (hsub hin)) hne)
  -- the new table is not a table of an entry that is done
  have hdone : ∀ i, Done frames dst
      { s' with ram := s'.ram.setTable f table, writes := s'.writes ++ [frameSpan f] } level
      (s.ram a.frame i) (table i) := by
    intro i
    refine (hentries i).congr (List.Subset.refl _) (fun hused g hg => ?_) fun hused g hg => ?_
    · refine Ram.setTable_of_ne ?_ table
      rintro rfl
      have htable : TableOf s.ram level (s.ram a.frame i) g := by
        refine hg.congr fun g hg => ?_
        have hbelow := hsource.apart g (.below hused hg)
        exact hlater.kept g (fun hin => hbelow.1 (hsub hin)) hbelow.2
      exact (hsource.apart g (.below hused htable)).1 hfmem
    · refine Ram.setTable_of_ne ?_ table
      rintro rfl
      exact hfrest ((hentries i).owned hused g hg).1
  have hself : s'.ram.setTable f table f = table := Ram.setTable_self _ _ _
  have hsrc : s'.ram.setTable f table a.frame = s.ram a.frame :=
    hfinal.kept _ (hsource.apart _ .root).1 (hsource.apart _ .root).2
  refine ⟨hfinal, (Ram.setTable_of_ne hfdst table).trans hroot, fun _ => hsource.later hfinal,
    .inr ⟨ha, rfl, fun i => ?_⟩, fun _ g hg => ?_⟩
  · show Twin (s'.ram.setTable f table) level (s'.ram.setTable f table a.frame i)
      (s'.ram.setTable f table f i)
    rw [hself, hsrc]
    exact (hdone i).twin
  · rcases hg with rfl | ⟨i, hused, hg⟩
    · exact ⟨hpool.subset hfmem, fun hin => hfrest (hlater.left.subset hin)⟩
    · dsimp only at hused hg
      rw [hself] at hused hg
      obtain ⟨hin, hfree⟩ := (hdone i).owned hused g hg
      exact ⟨hpool.subset (hsub hin), hfree⟩

theorem cloneTableOver_made {indices : List (Fin 512)} (hall : ∀ i, i ∈ indices) (level : Nat) :
    ∀ {pool : List Frame} {s : PhysMem} {a : Entry}, dst ∉ pool → s.frames <:+ pool → s.frames.Nodup →
      a ≠ .unused → Source dst s level a →
      Ends (cloneTableOver indices true level a) s (CloneMade pool dst s level a)
        fun s' => s'.frames = [] := by
  induction level with
  | zero =>
    intro pool s a _ _ _ ha hsource
    unfold cloneTableOver
    rw [ends_pure]
    exact ⟨later_refl dst s, rfl, fun _ => hsource, .inr ⟨ha, rfl⟩, fun _ f hf => hf.elim⟩
  | succ level ih =>
    intro pool s a hdst hpool hnodup ha hsource
    obtain ⟨hp, hh, hbelow⟩ := hsource.tree
    obtain ⟨hsrc, hne⟩ := hsource.apart _ .root
    unfold cloneTableOver
    rw [ends_expect_allocateFrame]
    refine ⟨fun hempty => hempty, fun f frames hframes => ?_⟩
    have hsub : frames ⊆ s.frames := hframes ▸ List.subset_cons_self f frames
    rw [ends_bind, ends_ensure, hh, hp]
    refine ⟨fun _ => ?_, fun h => by cases h⟩
    rw [ends_bind, ends_ensure]
    refine ⟨fun _ => ?_, fun h => by cases h⟩
    rw [ends_bind, ends_get, ends_bind]
    have hdst' : dst ∉ frames := fun hin => hdst (hpool.subset (hsub hin))
    refine (cloneEntries_made hdst' (ih hdst') indices _ (s := { s with frames := frames })
      List.suffix_rfl (List.nodup_cons.mp (hframes ▸ hnodup)).2 (fun hin => hsrc (hsub hin)) hne
      (fun i hi => ?_) fun i hi => absurd (hall i) hi).mono ?_ fun _ h => h
    · refine ⟨(hbelow i).resolve_left hi, fun g hg => ?_⟩
      obtain ⟨hfree, hgdst⟩ := hsource.apart g (.below hi hg)
      exact ⟨fun hin => hfree (hsub hin), hgdst⟩
    · rintro table s' ⟨hlater, hroot, hentries⟩
      rw [ends_bind, ends_setTable, ends_pure]
      exact made_setTable hframes hpool hnodup hdst ha hsource hlater hroot hentries

/-- The loop over the lower half. An entry is still to come, and unused in the clone if it is unused in the
source, or it is done. -/
theorem cloneLowerHalf_made (hdst : dst ∉ pool) (hne : src ≠ dst) :
    ∀ (is : List (Fin 512)) {s : PhysMem}, s.frames <:+ pool → s.frames.Nodup → src ∉ s.frames →
      (∀ i ∈ is, i.val < 256) →
      (∀ i : Fin 512, i.val < 256 → s.ram src i ≠ .unused → Source dst s 3 (s.ram src i)) →
      (∀ i : Fin 512, i.val < 256 → i ∈ is ∧ (s.ram src i = .unused → s.ram dst i = .unused) ∨
        Done pool dst s 3 (s.ram src i) (s.ram dst i)) →
      Ends (cloneLowerHalf src dst is) s
        (fun _ s' => Later dst s s' ∧
          ∀ i : Fin 512, i.val < 256 → Done pool dst s' 3 (s.ram src i) (s'.ram dst i))
        fun s' => s'.frames = []
  | [], s, _, _, _, _, _, hdone =>
    ⟨later_refl dst s, fun i hi => (hdone i hi).resolve_left fun h => List.not_mem_nil h.1⟩
  | j :: is, s, hpool, hnodup, hsrc, hlow, hsource, hdone => by
    have hj : j.val < 256 := hlow j List.mem_cons_self
    have hlow' : ∀ i ∈ is, i.val < 256 := fun i hi => hlow i (List.mem_cons_of_mem _ hi)
    unfold cloneLowerHalf
    rw [ends_bind, ends_get]
    by_cases hused : s.ram src j = .unused
    · rw [if_pos hused]
      refine cloneLowerHalf_made hdst hne is hpool hnodup hsrc hlow' hsource fun i hi => ?_
      rcases hdone i hi with ⟨hin, hkeep⟩ | hdone
      · rcases List.mem_cons.mp hin with rfl | hin
        · rw [hused, hkeep hused]
          exact .inr ⟨fun h => absurd rfl h, .inl ⟨rfl, rfl⟩, fun h => absurd rfl h⟩
        · exact .inl ⟨hin, hkeep⟩
      · exact .inr hdone
    · rw [if_neg hused, ends_bind]
      refine (cloneTableOver_made mem_tableIndices 3 hdst hpool hnodup hused (hsource j hj hused)).mono ?_
        fun _ h => h
      rintro b s₁ ⟨hlater₁, hroot₁, hmade⟩
      rw [ends_bind, ends_setEntry]
      have hset : Later dst s₁ { s₁ with
          ram := s₁.ram.set dst j b, writes := s₁.writes ++ [entrySpan dst j] } :=
        ⟨List.suffix_rfl, fun g _ hg => Ram.set_of_frame_ne hg j b⟩
      have hlater := hlater₁.trans hset
      have hsame : s₁.ram.set dst j b src = s.ram src := hlater.kept src hsrc hne
      have hrest := @cloneLowerHalf_made hdst hne is _ (hlater.left.trans hpool)
        (hnodup.sublist hlater.left.sublist) (fun hin => hsrc (hlater.left.subset hin)) hlow'
      refine (hrest (fun i hi => ?_) fun i hi => ?_).mono ?_ fun _ h => h
      · dsimp only
        rw [hsame]
        exact fun hi' => (hsource i hi hi').later hlater
      · dsimp only
        rw [hsame]
        by_cases heq : i = j
        · subst heq
          rw [Ram.set_self]
          exact .inr (hmade.later hdst hset)
        · rw [Ram.set_of_ne (fun h => heq h.2) b, hroot₁]
          rcases hdone i hi with ⟨hin, hkeep⟩ | hdone
          · exact .inl ⟨(List.mem_cons.mp hin).resolve_left heq, hkeep⟩
          · exact .inr (hdone.later hdst hlater)
      · rintro _ s₂ ⟨hlater₂, hall⟩
        dsimp only at hall
        rw [hsame] at hall
        exact ⟨hlater.trans hlater₂, hall⟩

/-- A page of the clone is the page of the source as it is now, and that is how it was. -/
theorem walk_of_done (hlater : Later dst s s')
    (hsrc : s'.ram src = s.ram src)
    (hsource : ∀ i : Fin 512, i.val < 256 → s.ram src i ≠ .unused → Source dst s 3 (s.ram src i))
    (hdone : ∀ i : Fin 512, i.val < 256 → Done pool dst s' 3 (s'.ram src i) (s'.ram dst i)) {page : Nat}
    (hpage : page < 2 ^ 35) : walk s'.ram 3 dst page = (walk s.ram 3 src page).map cowed := by
  have hi := index_lower hpage
  have hd := hdone _ hi
  have htwin : walk s'.ram 3 dst page = (walk s'.ram 3 src page).map cowed := by
    refine walk_twin ?_ hd.twin
    by_cases hused : s'.ram src (index 3 page) = .unused
    · exact .inl hused
    · exact .inr (hd.source hused).tree
  have hsame : walk s'.ram 3 src page = walk s.ram 3 src page := by
    refine walk_congr (congrFun hsrc _) fun hused f hf => ?_
    obtain ⟨hfree, hne⟩ := (hsource _ hi hused).apart f hf
    exact hlater.kept f hfree hne
  rw [htwin, hsame]

end FaithfulLemmas

open FaithfulLemmas

/-- `clone_user_mappings_cow` clones any address space. Let the lower half of `src` be a tree of tables, and
let the frames of the allocator be distinct and no tables of it, whatever they contain; `dst` is another
PML4, unused where `src` is, as `create_process_pml4` leaves it. The call panics only if the allocator runs
out. When it returns, every page of the lower half is mapped in `dst` as it is in `src`, but read-only; the
entries of the upper half are those of `src`; no table of the source has changed; and the tables of the
lower half of `dst` all come from the allocator. -/
theorem clone_preserves_space {src dst : Frame} {s : PhysMem} (htree : LowerTree s.ram src)
    (hnodup : s.frames.Nodup)
    (hframes : ∀ f ∈ s.frames, f ≠ src ∧ f ≠ dst ∧ ¬ LowerTable s.ram src f)
    (hdst : dst ≠ src ∧ ¬ LowerTable s.ram src dst)
    (hempty : ∀ i : Fin 512, i.val < 256 → s.ram src i = .unused → s.ram dst i = .unused) :
    Ends (cloneUserMappingsCow src dst) s (fun _ s' => ClonedSpace src dst s s')
      fun s' => s'.frames = [] := by
  have hpool : dst ∉ s.frames := fun hin => (hframes dst hin).2.1 rfl
  have hsrc : src ∉ s.frames := fun hin => (hframes src hin).1 rfl
  have hsource : ∀ i : Fin 512, i.val < 256 → s.ram src i ≠ .unused → Source dst s 3 (s.ram src i) := by
    intro i hi hused
    refine ⟨(htree i hi).resolve_left hused, fun f hf => ⟨fun hin => ?_, ?_⟩⟩
    · exact (hframes f hin).2.2 ⟨i, hi, hused, hf⟩
    · rintro rfl
      exact hdst.2 ⟨i, hi, hused, hf⟩
  unfold cloneUserMappingsCow
  rw [ends_bind]
  refine (cloneLowerHalf_made hpool hdst.1.symm lowerIndices List.suffix_rfl hnodup hsrc
    (fun i hi => mem_lowerIndices.mp hi) hsource
    fun i hi => .inl ⟨mem_lowerIndices.mpr hi, hempty i hi⟩).mono ?_ fun _ h => h
  rintro _ s₁ ⟨hlater₁, hdone₁⟩
  rw [ends_bind, ends_get, ends_setTable]
  generalize htable : (fun i : Fin 512 => if 256 ≤ i.val then s₁.ram src i else s₁.ram dst i) = table
  have hself : s₁.ram.setTable dst table dst = table := Ram.setTable_self _ _ _
  have hset : Later dst s₁ { s₁ with
      ram := s₁.ram.setTable dst table, writes := s₁.writes ++ [frameSpan dst] } :=
    ⟨List.suffix_rfl, fun g _ hg => Ram.setTable_of_ne hg table⟩
  have hlater := hlater₁.trans hset
  generalize hs' : { s₁ with
    ram := s₁.ram.setTable dst table, writes := s₁.writes ++ [frameSpan dst] } = s' at *
  have hdstRam : s'.ram dst = table := by
    rw [← hs']
    exact hself
  have hsrcRam : s'.ram src = s.ram src := hlater.kept src hsrc hdst.1.symm
  have hdone : ∀ i : Fin 512, i.val < 256 → Done s.frames dst s' 3 (s'.ram src i) (s'.ram dst i) := by
    intro i hi
    have hentry : table i = s₁.ram dst i := by
      rw [← htable]
      exact if_neg (Nat.not_le.mpr hi)
    rw [hdstRam, hentry, hsrcRam]
    exact (hdone₁ i hi).later hpool hset
  have hwalk : ∀ page < 2 ^ 35, walk s'.ram 3 dst page = (walk s.ram 3 src page).map cowed :=
    fun page hpage => walk_of_done hlater hsrcRam hsource hdone hpage
  have hbelow : ∀ f, LowerTable s.ram src f → s'.ram f = s.ram f := by
    rintro f ⟨i, hi, hused, hf⟩
    obtain ⟨hfree, hne⟩ := (hsource i hi hused).apart f hf
    exact hlater.kept f hfree hne
  refine ⟨fun page hpage => ?_, fun page hpage tr htr => ?_, fun i hi => ?_, fun f hf => ?_, fun f hf => ?_⟩
  · rw [hwalk page hpage, Option.map_eq_none_iff]
  · exact ⟨cowed tr, by rw [hwalk page hpage, htr, Option.map_some], cowed_readOnly tr⟩
  · rw [hdstRam, ← htable]
    dsimp only
    rw [if_pos hi]
    exact congrFun (hlater₁.kept src hsrc hdst.1.symm) i
  · rcases hf with rfl | hf
    · exact hsrcRam
    · exact hbelow f hf
  · obtain ⟨i, hi, hused, hf⟩ := hf
    obtain ⟨hin, -⟩ := (hdone i hi).owned hused f hf
    refine ⟨hin, (hframes f hin).1, ?_⟩
    rintro ⟨j, hj, hused', hf'⟩
    rw [hsrcRam] at hused' hf'
    exact (hframes f hin).2.2 ⟨j, hj, hused', hf'.congr fun g hg => hbelow g ⟨j, hj, hused', hg⟩⟩

/-- An address space in frame 1 with two pages, of which the second is the frame of the page table itself,
next to an empty PML4 in frame 5. The free frames are full of garbage. -/
def sampleSpace : PhysMem where
  ram f i :=
    if f = 1 ∧ i = 0 then ⟨tableFlags true true, 2⟩
    else if f = 2 ∧ i = 0 then ⟨tableFlags true true, 3⟩
    else if f = 3 ∧ i = 2 then ⟨tableFlags true true, 4⟩
    else if f = 4 ∧ i = 0 then ⟨tableFlags true true, 6⟩
    else if f = 4 ∧ i = 7 then ⟨tableFlags true true, 4⟩
    else if 16 ≤ f.toNat then ⟨tableFlags true true, 1⟩
    else .unused
  frames := [16, 17, 18, 19]
  writes := []
  mapped := []
  reads := []

theorem sampleSpace_lower : ∀ i : Fin 512, sampleSpace.ram 1 i ≠ .unused → i = 0 := by decide +kernel

theorem sampleSpace_level3 : ∀ i : Fin 512, sampleSpace.ram 2 i ≠ .unused → i = 0 := by decide +kernel

theorem sampleSpace_level2 : ∀ i : Fin 512, sampleSpace.ram 3 i ≠ .unused → i = 2 := by decide +kernel

theorem sampleSpace_tree : LowerTree sampleSpace.ram 1 := by
  intro i _
  by_cases hi : sampleSpace.ram 1 i = .unused
  · exact .inl hi
  obtain rfl := sampleSpace_lower i hi
  refine .inr ⟨by decide, by decide, fun j => ?_⟩
  by_cases hj : sampleSpace.ram 2 j = .unused
  · exact .inl hj
  obtain rfl := sampleSpace_level3 j hj
  refine .inr ⟨by decide, by decide, fun k => ?_⟩
  by_cases hk : sampleSpace.ram 3 k = .unused
  · exact .inl hk
  obtain rfl := sampleSpace_level2 k hk
  exact .inr ⟨by decide, by decide, fun _ => .inr trivial⟩

theorem sampleSpace_tables {f : Frame} (h : LowerTable sampleSpace.ram 1 f) : f = 2 ∨ f = 3 ∨ f = 4 := by
  obtain ⟨i, -, hi, hf⟩ := h
  obtain rfl := sampleSpace_lower i hi
  rcases hf with rfl | ⟨j, hj, hf⟩
  · exact .inl rfl
  obtain rfl := sampleSpace_level3 j hj
  rcases hf with rfl | ⟨k, hk, hf⟩
  · exact .inr (.inl rfl)
  obtain rfl := sampleSpace_level2 k hk
  rcases hf with rfl | ⟨_, _, hf⟩
  · exact .inr (.inr rfl)
  · exact hf.elim

theorem clone_preserves_space_sample : ∃ s',
    (cloneUserMappingsCow 1 5).result sampleSpace = some ((), s') ∧ ClonedSpace 1 5 sampleSpace s' := by
  have hruns : ((cloneUserMappingsCow 1 5).result sampleSpace).isSome = true := by decide +kernel
  obtain ⟨⟨⟨⟩, s'⟩, hresult⟩ := Option.isSome_iff_exists.mp hruns
  refine ⟨s', hresult, (clone_preserves_space sampleSpace_tree (by decide) ?_ ⟨by decide, ?_⟩ ?_).returns
    hresult⟩
  · intro f hf
    have hf : f = 16 ∨ f = 17 ∨ f = 18 ∨ f = 19 := by simpa [sampleSpace] using hf
    refine ⟨?_, ?_, fun h => ?_⟩
    · rcases hf with rfl | rfl | rfl | rfl <;> decide
    · rcases hf with rfl | rfl | rfl | rfl <;> decide
    · rcases hf with rfl | rfl | rfl | rfl <;> rcases sampleSpace_tables h with h | h | h <;>
        exact absurd h (by decide)
  · intro h
    rcases sampleSpace_tables h with h | h | h <;> exact absurd h (by decide)
  · decide +kernel

end Turnix
