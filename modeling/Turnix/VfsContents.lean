import Turnix.VfsFrame

/-!
# Directories and devices

`write` does not look at the type of an entry, only at whether it has a buffer. The default directories and
devices have none; a directory made with `mkdir` has an empty one, and takes bytes once it is open.
`contentless_iff`: in the runs from any ramdisk, directories and devices are without contents and refuse
a `write` as long as no `open` finds a directory that `mkdir` has made.
-/

namespace Turnix

open Lib

/-- The types of entries that are to have no contents. -/
def FileType.Contentless (t : FileType) : Prop := t = .directory ∨ t = .device

instance (t : FileType) : Decidable t.Contentless := inferInstanceAs (Decidable (_ ∨ _))

/-- No directory or device has contents, `stat` says so, and a `write` through a descriptor of one, other
than the terminal, fails and leaves the entries alone. -/
structure HoldsNoData (v : Vfs) : Prop where
  entries : ∀ e ∈ v.entries, e.fileType.Contentless → e.data.getD [] = []
  stat : ∀ path st, v.stat path = some st → st.fileType.Contentless → st.size = 0
  refuses : ∀ fdIndex d, v.descriptor fdIndex = some d → d.name ≠ "tty" → d.fileType.Contentless →
    ∀ room term buf, ∃ r, v.write room term fdIndex buf = .ok r ∧ r.ret = none ∧ r.vfs.entries = v.entries

/-- An `open` that gets a descriptor does not find a directory or device with a buffer. Only `mkdir` makes
one. -/
def OpensNoMadeDirectory (s : Files) : FileOp → Prop
  | .open path => path = "tty" ∨ s.vfs.firstFree = none ∨
      ∀ e ∈ s.vfs.lookup path, e.fileType.Contentless → e.data = none
  | _ => True

instance (s : Files) : (op : FileOp) → Decidable (OpensNoMadeDirectory s op)
  | .open path => inferInstanceAs (Decidable (path = "tty" ∨ s.vfs.firstFree = none ∨
      ∀ e ∈ s.vfs.lookup path, e.fileType.Contentless → e.data = none))
  | .close _ | .read _ _ | .write _ _ | .seek _ _ | .mkdir _ | .unlink _ | .chdir _ | .key _ =>
    isTrue trivial

open VfsLemmas VfsRunLemmas

namespace VfsContentsLemmas

variable {v v' : Vfs} {s s' : Files} {op : FileOp}

/-- Behind the descriptor there is no directory or device with a buffer. -/
def Plain (v : Vfs) (d : FileDescriptor) : Prop :=
  d.name ≠ "tty" → d.fileType.Contentless → ∀ e, v.lookup d.name = some e → e.data = none

/-- The invariant of the runs. -/
structure ContentsInv (v : Vfs) : Prop where
  descriptors : DescriptorsOk v
  entries : ∀ e ∈ v.entries, e.fileType.Contentless → e.data.getD [] = []
  plain : ∀ i d, v.descriptor i = some d → Plain v d

theorem ContentsInv.holdsNoData (h : ContentsInv v) : HoldsNoData v where
  entries := h.entries
  stat path st hst htype := by
    obtain ⟨e, he, rfl⟩ := Option.map_eq_some_iff.mp hst
    have hempty := h.entries e (List.mem_of_find?_eq_some he) htype
    cases hdata : e.data with
    | none => rfl
    | some d =>
      rw [hdata] at hempty
      exact congrArg List.length hempty
  refuses fdIndex d hd htty htype room term buf := by
    obtain ⟨e, he, -⟩ := h.descriptors fdIndex d hd
    have hnone := h.plain fdIndex d hd htty htype e he
    refine ⟨⟨none, v, term⟩, ?_, rfl, rfl⟩
    unfold Vfs.write
    simp only [hd, htty, ↓reduceIte, he, hnone]

theorem Plain.of_lookup {d : FileDescriptor} (h : Plain v d) (hlook : v'.lookup d.name = v.lookup d.name) :
    Plain v' d := by
  intro htty htype e he
  exact h htty htype e (hlook ▸ he)

/-- A descriptor is assigned that is plain, or none. -/
theorem ContentsInv.setDescriptor (h : ContentsInv v) {i : Nat} {x : Option FileDescriptor}
    (hok : DescriptorsOk (v.setDescriptor i x)) (hx : ∀ d, x = some d → Plain v d) :
    ContentsInv (v.setDescriptor i x) where
  descriptors := hok
  entries := by
    rw [entries_setDescriptor]
    exact h.entries
  plain j d hd := by
    have hplain : Plain v d := (descriptor_of_setDescriptor hd).elim (hx d) (h.plain j d)
    exact hplain.of_lookup (lookup_setDescriptor v i x d.name)

/-- The offset of a descriptor is changed. -/
theorem ContentsInv.move (h : ContentsInv v) {i : Nat} {d : FileDescriptor}
    (hd : v.descriptor i = some d) (offset : Nat)
    (hok : DescriptorsOk (v.setDescriptor i (some { d with offset := offset }))) :
    ContentsInv (v.setDescriptor i (some { d with offset := offset })) := by
  refine h.setDescriptor hok fun d' hd' => ?_
  cases hd'
  exact h.plain i d hd

theorem mem_setData {name : String} {data : List UInt8} : ∀ {es : List VfsEntry} {e' : VfsEntry},
    e' ∈ setData name data es → e' ∈ es ∨
      ∃ e, es.find? (·.name = name) = some e ∧ e' = { e with data := some data }
  | [], _, h => absurd h List.not_mem_nil
  | e :: es, e', h => by
    by_cases he : e.name = name
    · rw [setData, if_pos he] at h
      rcases List.mem_cons.mp h with rfl | h
      · exact .inr ⟨e, List.find?_cons_of_pos (by simpa using he), rfl⟩
      · exact .inl (List.mem_cons_of_mem e h)
    · rw [setData, if_neg he] at h
      rw [List.find?_cons_of_neg (by simpa using he)]
      rcases List.mem_cons.mp h with rfl | h
      · exact .inl List.mem_cons_self
      · exact (mem_setData h).imp (List.mem_cons_of_mem e) id

/-- The data of an entry with contents is replaced. -/
theorem ContentsInv.putData (h : ContentsInv v) {name : String} {e : VfsEntry}
    (he : v.lookup name = some e) (htype : ¬ e.fileType.Contentless) (data : List UInt8)
    (hok : DescriptorsOk (v.putData name data)) : ContentsInv (v.putData name data) where
  descriptors := hok
  entries := by
    intro e' he' htype'
    rcases mem_setData he' with hold | ⟨e₀, he₀, rfl⟩
    · exact h.entries e' hold htype'
    · rw [Vfs.lookup, he₀] at he
      cases he
      exact absurd htype' htype
  plain i d hd := by
    by_cases hname : d.name = name
    · -- the descriptor has the type of the entry
      intro _ hd'
      obtain ⟨e₀, he₀, htype₀⟩ := h.descriptors i d hd
      rw [hname, he] at he₀
      cases he₀
      rw [htype₀] at htype
      exact absurd hd' htype
    · exact (h.plain i d hd).of_lookup (find_setData_of_ne hname data v.entries)

theorem ContentsInv.open (h : ContentsInv v) {path : String} (hok : DescriptorsOk (v.open path).2)
    (hop : path = "tty" ∨ v.firstFree = none ∨
      ∀ e ∈ v.lookup path, e.fileType.Contentless → e.data = none) : ContentsInv (v.open path).2 := by
  rcases open_cases v path with ⟨-, heq⟩ | ⟨j, e, hfree, he, heq⟩
  · rw [heq]
    exact h
  · rw [heq] at hok ⊢
    refine h.setDescriptor hok fun d hd => ?_
    cases hd
    intro htty htype e' he'
    rcases hop with htty' | hfull | hall
    · exact absurd htty' htty
    · rw [hfull] at hfree
      cases hfree
    · rw [he] at he'
      cases he'
      exact hall e he htype

theorem ContentsInv.write (h : ContentsInv v) {room : Nat → Bool} {term : Terminal} {fdIndex : Nat}
    {buf : List UInt8} {r : WriteResult} (hr : v.write room term fdIndex buf = .ok r) (hok : DescriptorsOk r.vfs) :
    ContentsInv r.vfs := by
  rcases write_cases hr with ⟨-, heq, -⟩ | ⟨-, -, -, heq⟩ |
    ⟨d, e, old, data, offset, hd, htty, he, hold, -, heq⟩
  · rw [heq]
    exact h
  · rw [heq]
    exact h
  · rw [heq] at hok ⊢
    -- an entry with a buffer behind a plain descriptor has contents
    have htype : ¬ e.fileType.Contentless := by
      obtain ⟨e', he', htype⟩ := h.descriptors fdIndex d hd
      rw [he] at he'
      cases he'
      intro hcontentless
      have := h.plain fdIndex d hd htty (htype ▸ hcontentless) e he
      rw [hold] at this
      cases this
    have hput : DescriptorsOk (v.putData d.name data) := fun i d' hd' =>
      (h.descriptors i d' hd').putData data
    exact (h.putData he htype data hput).move hd offset hok

/-- A new directory has an empty buffer, and no descriptor yet. -/
theorem ContentsInv.mkdir (h : ContentsInv v) {path : String} (hok : DescriptorsOk (v.mkdir path).2) :
    ContentsInv (v.mkdir path).2 := by
  revert hok
  unfold Vfs.mkdir
  split <;> intro hok
  · exact h
  · refine ⟨hok, fun e he htype => ?_, fun i d hd => ?_⟩
    · rcases List.mem_append.mp he with he | he
      · exact h.entries e he htype
      · rw [List.mem_singleton.mp he]
        rfl
    · -- the name of an open descriptor is found before the new entry
      obtain ⟨e, he, -⟩ := h.descriptors i d hd
      refine (h.plain i d hd).of_lookup ?_
      rw [he]
      unfold Vfs.lookup at he ⊢
      rw [List.find?_append, he]
      rfl

theorem ContentsInv.unlink (h : ContentsInv v) {path : String} (hok : DescriptorsOk (v.unlink path).2) :
    ContentsInv (v.unlink path).2 := by
  unfold Vfs.unlink at hok ⊢
  split at hok
  · next index hindex =>
    refine ⟨hok, fun e he htype => h.entries e ((List.eraseIdx_sublist _ _).subset he) htype,
      fun i d hd => ?_⟩
    obtain ⟨hbefore, hname⟩ := descriptor_of_unlink hd
    exact (h.plain i d hbefore).of_lookup (find_eraseIdx_of_ne hname hindex)
  · exact h

theorem ContentsInv.step (h : ContentsInv s.vfs) (hop : OpensNoMadeDirectory s op)
    (hstep : fileStep s op = some s') : ContentsInv s'.vfs := by
  have hok : DescriptorsOk s'.vfs := h.descriptors.step (fileStep_cases hstep)
  cases op with
  | «open» path =>
    cases hstep
    exact h.open hok hop
  | close fdIndex =>
    cases hstep
    change DescriptorsOk (s.vfs.close fdIndex).2 at hok
    show ContentsInv (s.vfs.close fdIndex).2
    unfold Vfs.close at hok ⊢
    split at hok
    · exact h.setDescriptor hok fun d hd => by cases hd
    · exact h
  | read fdIndex buf =>
    cases hstep
    change DescriptorsOk (s.vfs.read s.term fdIndex buf).vfs at hok
    show ContentsInv (s.vfs.read s.term fdIndex buf).vfs
    rcases read_cases s.vfs s.term fdIndex buf with heq | ⟨d, offset, n, hd, -, heq⟩
    · rw [heq]
      exact h
    · rw [heq] at hok ⊢
      exact h.move hd offset hok
  | write fdIndex buf =>
    unfold fileStep at hstep
    dsimp only at hstep
    split at hstep
    · next r hr =>
      cases hstep
      exact h.write hr hok
    · cases hstep
  | seek fdIndex offset =>
    cases hstep
    change DescriptorsOk (s.vfs.seek fdIndex offset).2 at hok
    show ContentsInv (s.vfs.seek fdIndex offset).2
    unfold Vfs.seek at hok ⊢
    split at hok
    · next hd => exact h.move hd offset hok
    · exact h
  | mkdir path =>
    cases hstep
    exact h.mkdir hok
  | unlink path =>
    cases hstep
    exact h.unlink hok
  | chdir path =>
    cases hstep
    show ContentsInv (s.vfs.chdir path).2
    unfold Vfs.chdir
    split
    · exact ⟨h.descriptors, h.entries, h.plain⟩
    · exact h
  | key c =>
    cases hstep
    exact h

/-- The ramdisk brings regular files only. -/
theorem ramdiskLoop_regular {data : List UInt8} {offset : Nat} {entries out : List VfsEntry}
    (h : ramdiskLoop data offset entries = .ok out) :
    ∀ e ∈ out, e ∈ entries ∨ e.fileType = .regular := by
  induction offset, entries using ramdiskLoop.induct data with
  | case1 offset entries p hrecord =>
    rw [RamdiskLemmas.ramdiskLoop_panic hrecord] at h
    cases h
  | case2 offset entries hrecord =>
    rw [RamdiskLemmas.ramdiskLoop_stop hrecord] at h
    cases h
    exact fun e he => .inl he
  | case3 offset entries entry next hrecord ih =>
    rw [RamdiskLemmas.ramdiskLoop_record hrecord] at h
    intro e he
    rcases ih h e he with he | he
    · rcases List.mem_append.mp he with he | he
      · exact .inl he
      · rw [List.mem_singleton.mp he]
        exact .inr ((ramdiskRecord_some hrecord).2.2)
    · exact .inr he

theorem contentsInv_init {addr : Nat} {data : List UInt8}
    (h : Vfs.new.initFromRamdisk addr data = .ok v) : ContentsInv v := by
  have hclosed : ∀ i d, v.descriptor i ≠ some d := by
    intro i d hd
    unfold Vfs.descriptor at hd
    rw [RamdiskLemmas.openFiles_initFromRamdisk h] at hd
    split at hd <;> cases hd
  have hentries : ∀ e ∈ v.entries, e ∈ defaultEntries ∨ e.fileType = .regular := by
    unfold Vfs.initFromRamdisk at h
    dsimp only at h
    split at h
    · obtain ⟨entries, hloop, h⟩ := bind_eq_ok.mp h
      cases h
      exact ramdiskLoop_regular hloop
    · cases h
      exact fun e he => .inl he
  have hdefault : ∀ e ∈ defaultEntries, e.data = none := by decide
  refine ⟨fun i d hd => absurd hd (hclosed i d), fun e he htype => ?_,
    fun i d hd => absurd hd (hclosed i d)⟩
  rcases hentries e he with he | hregular
  · rw [hdefault e he]
    rfl
  · rw [hregular] at htype
    exact absurd htype (by decide)

/-- An `open` that finds a directory with a buffer gets a descriptor that takes bytes. -/
theorem open_made {path : String} (h : ¬ OpensNoMadeDirectory s (.open path)) :
    ∃ s', fileStep s (.open path) = some s' ∧ ¬ HoldsNoData s'.vfs := by
  refine ⟨_, rfl, fun hholds => ?_⟩
  obtain ⟨htty, hrest⟩ := not_or.mp h
  obtain ⟨hfree, hmade⟩ := not_or.mp hrest
  apply hmade
  intro e he htype
  rcases open_cases s.vfs path with ⟨hnone | hnone, -⟩ | ⟨j, e', -, he', heq⟩
  · rw [hnone] at he
    cases he
  · exact absurd hnone hfree
  · rw [he'] at he
    cases he
    change HoldsNoData (s.vfs.open path).2 at hholds
    rw [heq] at hholds
    have hd := @descriptor_setDescriptor s.vfs j j.isLt (some ⟨path, e.fileType, 0⟩)
    obtain ⟨r, hr, hret, -⟩ := hholds.refuses j _ hd htty htype ample s.term []
    cases hdata : e.data with
    | none => rfl
    | some old =>
      have hlook := (lookup_setDescriptor s.vfs j (some ⟨path, e.fileType, 0⟩) path).trans he'
      exact absurd ((write_file_ret hd htty hlook hdata hr).symm.trans hret) (Option.some_ne_none _)

end VfsContentsLemmas

open VfsContentsLemmas

/-- In all states of a run from any ramdisk, directories and devices hold no data exactly if no `open` of the
run finds a directory that `mkdir` has made. -/
theorem contentless_iff {addr : Nat} {data : List UInt8} {v : Vfs}
    (hinit : Vfs.new.initFromRamdisk addr data = .ok v) (term : Terminal) (ops : List FileOp) :
    (∀ before s, before <+: ops → run fileStep ⟨v, term⟩ before = some s → HoldsNoData s.vfs) ↔
      AllSteps fileStep OpensNoMadeDirectory ⟨v, term⟩ ops := by
  refine run_states_iff (I := fun s : Files => ContentsInv s.vfs) (G := fun s => HoldsNoData s.vfs)
    (fun s op s' hs hop hstep => hs.step hop hstep) (fun s hs => hs.holdsNoData) ?_ (contentsInv_init hinit)
  intro s op _ hnot
  cases op with
  | «open» path => exact open_made hnot
  | close | read | write | seek | mkdir | unlink | chdir | key => exact absurd trivial hnot

/-- Directories are made, and only the default ones are opened. -/
theorem contentless_sample : ∃ v s, Vfs.new.initFromRamdisk 0 [] = .ok v ∧
    run fileStep ⟨v, ⟨⟨"", []⟩, none⟩⟩ [.mkdir "d", .open "dev", .write 0 [1]] = some s ∧
    HoldsNoData s.vfs := by
  have hruns : (run fileStep ⟨Vfs.new.initDefaults, ⟨⟨"", []⟩, none⟩⟩
      [.mkdir "d", .open "dev", .write 0 [1]]).isSome := by decide
  obtain ⟨s, hrun⟩ := Option.isSome_iff_exists.mp hruns
  have hinit : Vfs.new.initFromRamdisk 0 [] = .ok Vfs.new.initDefaults := rfl
  exact ⟨Vfs.new.initDefaults, s, hinit, hrun,
    (contentless_iff hinit _ _).mpr (by decide) _ s (List.prefix_refl _) hrun⟩

/-- A directory that is made, opened and written to: the `write` is accepted, and `stat` says that the
directory has one byte. -/
theorem made_directory_takes_data : ∃ v s, Vfs.new.initFromRamdisk 0 [] = .ok v ∧
    run fileStep ⟨v, ⟨⟨"", []⟩, none⟩⟩ [.mkdir "d", .open "d", .write 0 [1]] = some s ∧
    s.vfs.stat "d" = some ⟨1, .directory⟩ := by
  have hstat : (run fileStep ⟨Vfs.new.initDefaults, ⟨⟨"", []⟩, none⟩⟩
      [.mkdir "d", .open "d", .write 0 [1]]).map (fun s => s.vfs.stat "d") =
        some (some ⟨1, .directory⟩) := by decide
  obtain ⟨s, hrun, hstat⟩ := Option.map_eq_some_iff.mp hstat
  exact ⟨Vfs.new.initDefaults, s, rfl, hrun, hstat⟩

end Turnix
