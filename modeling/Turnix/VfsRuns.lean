import Turnix.Lib.Run
import Turnix.Ramdisk

/-!
# Runs of the file system

Any order of VFS operations and of keys that are typed, on the file system that `init_from_ramdisk`
leaves. `fileStep_cases` says once what an operation can do to the entries and the descriptors; the
invariants follow from that.

* `descriptor_has_entry`: every open descriptor has the type of the first entry with its name.
* `entry_names_distinct_iff`: the names of the entries are distinct in all runs exactly if the ramdisk
  has distinct names, and none of the default ones.
-/

namespace Turnix

open Lib

/-! ## The system -/

/-- `VFS`, and the terminal behind the name `tty`. -/
structure Files where
  vfs : Vfs
  term : Terminal

/-- The operations, and a character from the keyboard. -/
inductive FileOp
  | open (path : String)
  | close (fdIndex : Nat)
  | read (fdIndex : Nat) (buf : List UInt8)
  | write (fdIndex : Nat) (buf : List UInt8)
  | seek (fdIndex : Nat) (offset : Nat)
  | mkdir (path : String)
  | unlink (path : String)
  | chdir (path : String)
  | key (c : Char)
deriving DecidableEq, Repr

/-- One operation. A `write` that panics has no step; the heap is taken to have room for the files. -/
def fileStep (s : Files) : FileOp → Option Files
  | .open path => some { s with vfs := (s.vfs.open path).2 }
  | .close fdIndex => some { s with vfs := (s.vfs.close fdIndex).2 }
  | .read fdIndex buf =>
    let r := s.vfs.read s.term fdIndex buf
    some ⟨r.vfs, r.term⟩
  | .write fdIndex buf =>
    match s.vfs.write ample s.term fdIndex buf with
    | .ok r => some ⟨r.vfs, r.term⟩
    | .error _ => none
  | .seek fdIndex offset => some { s with vfs := (s.vfs.seek fdIndex offset).2 }
  | .mkdir path => some { s with vfs := (s.vfs.mkdir path).2 }
  | .unlink path => some { s with vfs := (s.vfs.unlink path).2 }
  | .chdir path => some { s with vfs := (s.vfs.chdir path).2 }
  | .key c => some { s with term := s.term.handleInput c }

/-- What an operation can do to the file system. -/
inductive VfsStep (op : FileOp) (v : Vfs) : Vfs → Prop
  | stay : VfsStep op v v
  | opened (j : Nat) {path : String} {e : VfsEntry} (hentry : v.lookup path = some e) :
      VfsStep op v (v.setDescriptor j (some ⟨path, e.fileType, 0⟩))
  | closed (j : Nat) : VfsStep op v (v.setDescriptor j none)
  | moved {j : Nat} {d : FileDescriptor} (hd : v.descriptor j = some d) (offset : Nat) :
      VfsStep op v (v.setDescriptor j (some { d with offset := offset }))
  | written {j : Nat} {d : FileDescriptor} (hd : v.descriptor j = some d) (data : List UInt8)
      (offset : Nat) :
      VfsStep op v ((v.putData d.name data).setDescriptor j (some { d with offset := offset }))
  | made {path : String} (hop : op = .mkdir path) (hnew : v.entries.any (·.name = path) = false) :
      VfsStep op v { v with entries := v.entries ++ [⟨path, .directory, some []⟩] }
  | unlinked {path : String} {index : Nat} (hop : op = .unlink path)
      (hindex : v.entries.findIdx? (·.name = path) = some index) :
      VfsStep op v { v with
        entries := v.entries.eraseIdx index
        openFiles := fun j => (v.openFiles j).filter fun f => f.name ≠ path }
  | entered (path : String) : VfsStep op v { v with cwd := path }

open VfsLemmas RamdiskLemmas

namespace VfsRunLemmas

variable {op : FileOp} {v v' : Vfs} {name : String}

theorem read_cases (v : Vfs) (term : Terminal) (fdIndex : Nat) (buf : List UInt8) :
    (v.read term fdIndex buf).vfs = v ∨ ∃ d offset n, v.descriptor fdIndex = some d ∧
      (v.read term fdIndex buf).ret = some n ∧
      (v.read term fdIndex buf).vfs = v.setDescriptor fdIndex (some { d with offset := offset }) := by
  unfold Vfs.read
  split
  · exact .inl rfl
  · next d hd =>
    split
    · split <;> exact .inl rfl
    · split
      · exact .inl rfl
      · split
        · exact .inl rfl
        · dsimp only
          split
          · exact .inl rfl
          · exact .inr ⟨d, _, _, hd, rfl, rfl⟩

/-- A `write` that does not panic fails and does nothing, goes to the terminal, or appends to the first
entry with the name of the descriptor. It fails only if that entry has no data. -/
theorem write_cases {room : Nat → Bool} {term : Terminal} {fdIndex : Nat} {buf : List UInt8} {r : WriteResult}
    (h : v.write room term fdIndex buf = .ok r) :
    (r.ret = none ∧ r.vfs = v ∧ ∀ d e, v.descriptor fdIndex = some d → d.name ≠ "tty" →
      v.lookup d.name = some e → e.data = none) ∨
    (∃ d, v.descriptor fdIndex = some d ∧ d.name = "tty" ∧ r.vfs = v) ∨
    ∃ d e old data offset, v.descriptor fdIndex = some d ∧ d.name ≠ "tty" ∧
      v.lookup d.name = some e ∧ e.data = some old ∧ r.ret = some buf.length ∧
      r.vfs = (v.putData d.name data).setDescriptor fdIndex (some { d with offset := offset }) := by
  unfold Vfs.write at h
  split at h
  · next hnone =>
    cases h
    refine .inl ⟨rfl, rfl, fun d e hd => ?_⟩
    rw [hnone] at hd
    cases hd
  · next d hd =>
    split at h
    · next htty =>
      split at h <;> cases h
      · exact .inr (.inl ⟨d, hd, htty, rfl⟩)
      · refine .inl ⟨rfl, rfl, fun d' e hd' hname => ?_⟩
        rw [hd] at hd'
        cases hd'
        exact absurd htty hname
    · next htty =>
      split at h
      · next hnone =>
        cases h
        refine .inl ⟨rfl, rfl, fun d' e hd' _ he => ?_⟩
        rw [hd] at hd'
        cases hd'
        rw [hnone] at he
        cases he
      · next e he =>
        split at h
        · next hnone =>
          cases h
          refine .inl ⟨rfl, rfl, fun d' e' hd' _ he' => ?_⟩
          rw [hd] at hd'
          cases hd'
          rw [he] at he'
          cases he'
          exact hnone
        · next old hold =>
          -- with and without the zeros in front
          dsimp only at h
          split at h <;>
          · obtain ⟨_, -, h⟩ := bind_eq_ok.mp h
            obtain ⟨data, -, h⟩ := bind_eq_ok.mp h
            obtain ⟨offset, -, h⟩ := bind_eq_ok.mp h
            cases h
            exact .inr (.inr ⟨d, e, old, data, offset, hd, htty, he, hold, rfl, rfl⟩)

/-- What a step can do. -/
theorem fileStep_cases {s s' : Files} (h : fileStep s op = some s') : VfsStep op s.vfs s'.vfs := by
  cases op with
  | «open» path =>
    cases h
    show VfsStep _ _ (s.vfs.open path).2
    rcases open_cases s.vfs path with ⟨-, heq⟩ | ⟨j, e, -, he, heq⟩ <;> rw [heq]
    · exact .stay
    · exact .opened j he
  | close fdIndex =>
    cases h
    show VfsStep _ _ (s.vfs.close fdIndex).2
    unfold Vfs.close
    split
    · exact .closed fdIndex
    · exact .stay
  | read fdIndex buf =>
    cases h
    show VfsStep _ _ (s.vfs.read s.term fdIndex buf).vfs
    rcases read_cases s.vfs s.term fdIndex buf with heq | ⟨d, offset, -, hd, -, heq⟩ <;> rw [heq]
    · exact .stay
    · exact .moved hd offset
  | write fdIndex buf =>
    unfold fileStep at h
    dsimp only at h
    split at h
    · next r hr =>
      cases h
      show VfsStep _ _ r.vfs
      rcases write_cases hr with ⟨-, heq, -⟩ | ⟨-, -, -, heq⟩ |
        ⟨d, -, -, data, offset, hd, -, -, -, -, heq⟩ <;> rw [heq]
      · exact .stay
      · exact .stay
      · exact .written hd data offset
    · cases h
  | seek fdIndex offset =>
    cases h
    show VfsStep _ _ (s.vfs.seek fdIndex offset).2
    unfold Vfs.seek
    split
    · next hd => exact .moved hd offset
    · exact .stay
  | mkdir path =>
    cases h
    show VfsStep _ _ (s.vfs.mkdir path).2
    unfold Vfs.mkdir
    split
    · exact .stay
    · next hnew => exact .made rfl (Bool.not_eq_true _ ▸ hnew)
  | unlink path =>
    cases h
    show VfsStep _ _ (s.vfs.unlink path).2
    unfold Vfs.unlink
    split
    · next hindex => exact .unlinked rfl hindex
    · exact .stay
  | chdir path =>
    cases h
    show VfsStep _ _ (s.vfs.chdir path).2
    unfold Vfs.chdir
    split
    · exact .entered path
    · exact .stay
  | key c =>
    cases h
    exact .stay

/-! ## Names and look-ups -/

theorem map_name_setData (data : List UInt8) : ∀ es : List VfsEntry,
    (setData name data es).map VfsEntry.name = es.map VfsEntry.name
  | [] => rfl
  | e :: es => by
    unfold setData
    split
    · rfl
    · rw [List.map_cons, map_name_setData data es, List.map_cons]

theorem find_setData_of_ne {name' : String} (hne : name' ≠ name) (data : List UInt8) :
    ∀ es : List VfsEntry,
      (setData name data es).find? (·.name = name') = es.find? (·.name = name')
  | [] => rfl
  | e :: es => by
    unfold setData
    split
    · next he =>
      have hne' : ¬ e.name = name' := fun h => hne (h.symm.trans he)
      rw [List.find?_cons_of_neg (by simpa using hne'), List.find?_cons_of_neg (by simpa using hne')]
    · rw [List.find?_cons, List.find?_cons, find_setData_of_ne hne data es]

theorem find_eraseIdx_of_ne {name' : String} (hne : name' ≠ name) :
    ∀ {es : List VfsEntry} {index : Nat}, es.findIdx? (·.name = name) = some index →
      (es.eraseIdx index).find? (·.name = name') = es.find? (·.name = name')
  | [], _, h => by cases h
  | e :: es, index, h => by
    rw [List.findIdx?_cons] at h
    split at h
    · next he =>
      cases h
      have hne' : ¬ e.name = name' := fun h => hne (h.symm.trans (of_decide_eq_true he))
      rw [List.eraseIdx_cons_zero, List.find?_cons_of_neg (by simpa using hne')]
    · obtain ⟨i, hi, rfl⟩ := Option.map_eq_some_iff.mp h
      rw [List.eraseIdx_cons_succ, List.find?_cons, List.find?_cons, find_eraseIdx_of_ne hne hi]

theorem lookup_eq_none : v.lookup name = none ↔ name ∉ v.entries.map VfsEntry.name := by
  unfold Vfs.lookup
  rw [List.find?_eq_none]
  constructor
  · intro h hin
    obtain ⟨e, he, rfl⟩ := List.mem_map.mp hin
    exact h e he (decide_eq_true rfl)
  · intro h e he hname
    exact h (List.mem_map.mpr ⟨e, he, of_decide_eq_true hname⟩)

theorem descriptor_of_setDescriptor {i j : Nat} {x : Option FileDescriptor} {d : FileDescriptor}
    (h : (v.setDescriptor j x).descriptor i = some d) : x = some d ∨ v.descriptor i = some d := by
  by_cases hij : i = j
  · subst hij
    have hi := descriptor_lt h
    rw [descriptor_setDescriptor hi] at h
    exact .inl h
  · rw [descriptor_setDescriptor_of_ne hij] at h
    exact .inr h

/-- A descriptor that `unlink` leaves was open before, under another name than the one that is removed. -/
theorem descriptor_of_unlink {i : Nat} {d : FileDescriptor} {path : String} {entries : List VfsEntry}
    (h : Vfs.descriptor { v with
      entries := entries
      openFiles := fun j => (v.openFiles j).filter fun f => f.name ≠ path } i = some d) :
    v.descriptor i = some d ∧ d.name ≠ path := by
  unfold Vfs.descriptor at h ⊢
  split at h
  · next hi =>
    obtain ⟨hsome, hne⟩ := Option.filter_eq_some_iff.mp h
    rw [dif_pos hi]
    exact ⟨hsome, of_decide_eq_true hne⟩
  · cases h

/-- The first entry with the name of the descriptor has its type. -/
def HasEntry (v : Vfs) (d : FileDescriptor) : Prop :=
  ∃ e, v.lookup d.name = some e ∧ e.fileType = d.fileType

/-- The invariant of the descriptors. -/
def DescriptorsOk (v : Vfs) : Prop := ∀ i d, v.descriptor i = some d → HasEntry v d

theorem HasEntry.setDescriptor {d : FileDescriptor} (h : HasEntry v d) (j : Nat)
    (x : Option FileDescriptor) : HasEntry (v.setDescriptor j x) d := by
  unfold HasEntry
  rw [lookup_setDescriptor]
  exact h

theorem HasEntry.putData {d : FileDescriptor} (h : HasEntry v d) (data : List UInt8) :
    HasEntry (v.putData name data) d := by
  obtain ⟨e, he, htype⟩ := h
  by_cases hname : d.name = name
  · subst hname
    exact ⟨_, lookup_putData he data, htype⟩
  · refine ⟨e, ?_, htype⟩
    exact (find_setData_of_ne hname data v.entries).trans he

/-- A descriptor is assigned that has an entry, or none. -/
theorem DescriptorsOk.setDescriptor (h : DescriptorsOk v) (j : Nat) {x : Option FileDescriptor}
    (hx : ∀ d, x = some d → HasEntry v d) : DescriptorsOk (v.setDescriptor j x) := by
  intro i d hd
  rcases descriptor_of_setDescriptor hd with hnew | hold
  · exact (hx d hnew).setDescriptor j x
  · exact (h i d hold).setDescriptor j x

theorem DescriptorsOk.step (h : DescriptorsOk v) (hstep : VfsStep op v v') : DescriptorsOk v' := by
  cases hstep with
  | stay => exact h
  | opened j hentry =>
    refine h.setDescriptor j fun d hd => ?_
    cases hd
    exact ⟨_, hentry, rfl⟩
  | closed j => exact h.setDescriptor j fun d hd => nomatch hd
  | @moved j old hold offset =>
    refine h.setDescriptor j fun d hd => ?_
    cases hd
    have hentry : HasEntry v old := h j old hold
    exact hentry
  | @written j old hold data offset =>
    have hput : DescriptorsOk (v.putData old.name data) := fun i d hd => (h i d hd).putData data
    refine hput.setDescriptor j fun d hd => ?_
    cases hd
    have hentry : HasEntry (v.putData old.name data) old := hput j old hold
    exact hentry
  | made hop hnew =>
    intro i d hd
    obtain ⟨e, he, htype⟩ := h i d hd
    refine ⟨e, ?_, htype⟩
    unfold Vfs.lookup at he ⊢
    rw [List.find?_append, he]
    rfl
  | @unlinked path index hop hindex =>
    intro i d hd
    obtain ⟨hbefore, hname⟩ := descriptor_of_unlink hd
    obtain ⟨e, he, htype⟩ := h i d hbefore
    exact ⟨e, (find_eraseIdx_of_ne hname hindex).trans he, htype⟩
  | entered path => exact h

/-- The names of the entries, after a step. -/
theorem names_cases (hstep : VfsStep op v v') :
    v'.entries.map VfsEntry.name = v.entries.map VfsEntry.name ∨
    (∃ path, op = .mkdir path ∧ path ∉ v.entries.map VfsEntry.name ∧
      v'.entries.map VfsEntry.name = v.entries.map VfsEntry.name ++ [path]) ∨
    (v'.entries.map VfsEntry.name).Sublist (v.entries.map VfsEntry.name) := by
  cases hstep with
  | stay => exact .inl rfl
  | opened j hentry => exact .inl (by rw [entries_setDescriptor])
  | closed j => exact .inl (by rw [entries_setDescriptor])
  | moved hd offset => exact .inl (by rw [entries_setDescriptor])
  | written hd data offset =>
    left
    rw [entries_setDescriptor]
    exact map_name_setData data v.entries
  | @made path hop hnew =>
    refine .inr (.inl ⟨path, hop, fun hin => ?_, List.map_append⟩)
    obtain ⟨e, he, hname⟩ := List.mem_map.mp hin
    exact absurd (List.any_eq_true.mpr ⟨e, he, decide_eq_true hname⟩) (by rw [hnew]; decide)
  | unlinked hop hindex => exact .inr (.inr ((List.eraseIdx_sublist _ _).map _))
  | entered path => exact .inl rfl

theorem names_nodup_step (h : (v.entries.map VfsEntry.name).Nodup) (hstep : VfsStep op v v') :
    (v'.entries.map VfsEntry.name).Nodup := by
  rcases names_cases hstep with heq | ⟨path, -, hnew, heq⟩ | hsub
  · rw [heq]
    exact h
  · rw [heq]
    refine List.nodup_append.mpr ⟨h, List.pairwise_singleton _ path, fun a ha b hb hab => hnew ?_⟩
    rw [← List.mem_singleton.mp hb, ← hab]
    exact ha
  · exact h.sublist hsub

/-- A name comes only with a `mkdir`. -/
theorem absent_step {path : String} (h : path ∉ v.entries.map VfsEntry.name)
    (hop : op ≠ .mkdir path) (hstep : VfsStep op v v') : path ∉ v'.entries.map VfsEntry.name := by
  rcases names_cases hstep with heq | ⟨path', hmk, -, heq⟩ | hsub
  · rw [heq]
    exact h
  · rw [heq]
    intro hin
    rcases List.mem_append.mp hin with hin | hin
    · exact h hin
    · rw [List.mem_singleton.mp hin] at hop
      exact hop hmk
  · exact fun hin => h (hsub.subset hin)

theorem absent_run {path : String} : ∀ {ops : List FileOp} {s s' : Files},
    path ∉ s.vfs.entries.map VfsEntry.name → (∀ op ∈ ops, op ≠ .mkdir path) →
      run fileStep s ops = some s' → path ∉ s'.vfs.entries.map VfsEntry.name
  | [], _, _, h, _, hrun => by
    cases hrun
    exact h
  | op :: ops, s, s', h, hops, hrun => by
    obtain ⟨m, hm, hrest⟩ := run_cons.mp hrun
    refine absent_run ?_ (fun o ho => hops o (List.mem_cons_of_mem _ ho)) hrest
    exact absent_step h (hops op List.mem_cons_self) (fileStep_cases hm)

end VfsRunLemmas

open VfsRunLemmas

/-! ## Descriptors and entries -/

/-- In every run from any ramdisk, an open descriptor finds an entry of its type. -/
theorem descriptor_has_entry {addr : Nat} {data : List UInt8} {v : Vfs} {term : Terminal}
    (hinit : Vfs.new.initFromRamdisk addr data = .ok v) {ops : List FileOp} {s : Files}
    (hrun : run fileStep ⟨v, term⟩ ops = some s) {fdIndex : Nat} {d : FileDescriptor}
    (hd : s.vfs.descriptor fdIndex = some d) :
    ∃ e, s.vfs.lookup d.name = some e ∧ e.fileType = d.fileType := by
  have hstart : DescriptorsOk v := by
    intro i d hd
    unfold Vfs.descriptor at hd
    rw [openFiles_initFromRamdisk hinit] at hd
    split at hd <;> cases hd
  have hinv : DescriptorsOk s.vfs :=
    run_invariant (P := fun s : Files => DescriptorsOk s.vfs)
      (fun _ _ _ hs hstep => hs.step (fileStep_cases hstep)) hstart hrun
  exact hinv fdIndex d hd

/-- A ramdisk with two files of one name. -/
def twoInits : List RamdiskFile := [⟨"init", [1]⟩, ⟨"init", [2]⟩]

/-- What it becomes. -/
def twoInitsVfs : Vfs := { Vfs.new with
  entries := defaultEntries ++ [⟨"init", .regular, some [1]⟩, ⟨"init", .regular, some [2]⟩] }

theorem twoInits_decoded :
    Vfs.new.initFromRamdisk 0x100000 (ramdiskImage twoInits) = .ok twoInitsVfs := by
  refine initFromRamdisk_image .new (by decide) (fun f hf => ?_) (by decide +kernel)
  simp only [twoInits, List.mem_cons, List.not_mem_nil, or_false] at hf
  rcases hf with rfl | rfl <;>
  · unfold RamdiskFile.Storable
    decide

/-- The first file is open when it is unlinked, and then the second one is opened. -/
theorem descriptor_has_entry_sample :
    ∃ s, run fileStep ⟨twoInitsVfs, ⟨⟨"", []⟩, none⟩⟩ [.open "init", .unlink "init", .open "init"] =
        some s ∧
      ∃ d, s.vfs.descriptor 0 = some d ∧
        ∃ e, s.vfs.lookup d.name = some e ∧ e.fileType = d.fileType := by
  have hopen : (run fileStep ⟨twoInitsVfs, ⟨⟨"", []⟩, none⟩⟩
      [.open "init", .unlink "init", .open "init"]).map (fun s => s.vfs.descriptor 0) =
        some (some ⟨"init", .regular, 0⟩) := by decide
  obtain ⟨s, hs, hd⟩ := Option.map_eq_some_iff.mp hopen
  exact ⟨s, hs, _, hd, descriptor_has_entry twoInits_decoded hs hd⟩

/-! ## Distinct names -/

/-- The names of the records, and those of the default entries, are distinct. -/
def DistinctNames (data : List UInt8) : Prop :=
  ∀ offsets, Records data 0 offsets →
    (defaultEntries.map VfsEntry.name ++ offsets.map (recordName data)).Nodup

/-- In all runs the names of the entries are distinct, and a name that has been unlinked is not found
before it is made again. -/
def NamesStayDistinct (start : Files) : Prop :=
  ∀ ops s, run fileStep start ops = some s →
    (s.vfs.entries.map VfsEntry.name).Nodup ∧
    ∀ path v, s.vfs.unlink path = (true, v) →
      ∀ later s', (∀ op ∈ later, op ≠ .mkdir path) → run fileStep ⟨v, s.term⟩ later = some s' →
        s'.vfs.stat path = none ∧ (s'.vfs.open path).1 = none

namespace VfsRunLemmas

theorem absent_eraseIdx {path : String} : ∀ {es : List VfsEntry} {index : Nat},
    (es.map VfsEntry.name).Nodup → es.findIdx? (·.name = path) = some index →
      path ∉ (es.eraseIdx index).map VfsEntry.name
  | [], _, _, h => by cases h
  | e :: es, index, hnodup, h => by
    rw [List.map_cons, List.nodup_cons] at hnodup
    rw [List.findIdx?_cons] at h
    split at h
    · next he =>
      cases h
      rw [List.eraseIdx_cons_zero, ← of_decide_eq_true he]
      exact hnodup.1
    · next he =>
      obtain ⟨i, hi, rfl⟩ := Option.map_eq_some_iff.mp h
      rw [List.eraseIdx_cons_succ, List.map_cons, List.mem_cons, not_or]
      exact ⟨fun heq => he (decide_eq_true heq.symm), absent_eraseIdx hnodup.2 hi⟩

theorem unlink_absent {v v' : Vfs} {path : String} (hnodup : (v.entries.map VfsEntry.name).Nodup)
    (h : v.unlink path = (true, v')) : path ∉ v'.entries.map VfsEntry.name := by
  unfold Vfs.unlink at h
  split at h
  · next index hindex =>
    cases h
    exact absent_eraseIdx hnodup hindex
  · cases h

theorem names_records (data : List UInt8) (offsets : List Nat) :
    (Vfs.new.entries ++ defaultEntries ++ offsets.map (recordEntry data)).map VfsEntry.name =
      defaultEntries.map VfsEntry.name ++ offsets.map (recordName data) := by
  rw [List.map_append, List.map_map]
  rfl

theorem namesStayDistinct {start : Files} (h : (start.vfs.entries.map VfsEntry.name).Nodup) :
    NamesStayDistinct start := by
  intro ops s hrun
  have hnodup : (s.vfs.entries.map VfsEntry.name).Nodup :=
    run_invariant (P := fun s : Files => (s.vfs.entries.map VfsEntry.name).Nodup)
      (fun _ _ _ hs hstep => names_nodup_step hs (fileStep_cases hstep)) h hrun
  refine ⟨hnodup, fun path v hunlink later s' hlater hrun' => ?_⟩
  have habsent : path ∉ s'.vfs.entries.map VfsEntry.name :=
    absent_run (unlink_absent hnodup hunlink) hlater hrun'
  constructor
  · unfold Vfs.stat
    rw [lookup_eq_none.mpr habsent]
    rfl
  · rcases open_cases s'.vfs path with ⟨-, heq⟩ | ⟨j, e, -, he, -⟩
    · rw [heq]
    · rw [lookup_eq_none.mpr habsent] at he
      cases he

end VfsRunLemmas

/-- The names of the entries stay distinct exactly if those that the ramdisk brings are: `mkdir` refuses a
name that exists, and the ramdisk is the only other way for an entry to come in. -/
theorem entry_names_distinct_iff {addr : Nat} (haddr : addr ≠ 0) {data : List UInt8}
    (hlen : data.length ≤ isizeMax) {v : Vfs} (hinit : Vfs.new.initFromRamdisk addr data = .ok v)
    (term : Terminal) : NamesStayDistinct ⟨v, term⟩ ↔ DistinctNames data := by
  obtain ⟨offsets, hoffsets, rfl⟩ := initFromRamdisk_records haddr hlen hinit
  constructor
  · intro h others hothers
    rw [Records.unique hoffsets hothers, ← names_records]
    exact (h [] _ rfl).1
  · intro h
    refine namesStayDistinct ?_
    rw [names_records]
    exact h offsets hoffsets

/-- One file with a name of its own. -/
theorem entry_names_distinct_sample : NamesStayDistinct
    ⟨{ Vfs.new with entries := defaultEntries ++ [⟨"init", .regular, some [1]⟩] },
      ⟨⟨"", []⟩, none⟩⟩ := by
  have hstorable : ∀ f ∈ [RamdiskFile.mk "init" [1]], f.Storable := by
    intro f hf
    rw [List.mem_singleton.mp hf]
    unfold RamdiskFile.Storable
    decide
  have hinit : Vfs.new.initFromRamdisk 0x100000 (ramdiskImage [⟨"init", [1]⟩]) = .ok { Vfs.new with
      entries := defaultEntries ++ [⟨"init", .regular, some [1]⟩] } :=
    initFromRamdisk_image .new (by decide) hstorable (by decide +kernel)
  refine (entry_names_distinct_iff (by decide) (by decide +kernel) hinit _).mpr ?_
  intro offsets hoffsets
  obtain ⟨others, hothers, heq⟩ := initFromRamdisk_records (by decide) (by decide +kernel) hinit
  have hentries : defaultEntries ++ [⟨"init", .regular, some [1]⟩] =
      Vfs.new.entries ++ defaultEntries ++ others.map (recordEntry _) := congrArg Vfs.entries heq
  rw [Records.unique hothers hoffsets, ← names_records, ← hentries]
  decide

/-- With two files `init` in the ramdisk, the second one is found after `unlink` has removed `init`. -/
theorem duplicate_survives_unlink :
    ∃ v, Vfs.new.initFromRamdisk 0x100000 (ramdiskImage twoInits) = .ok v ∧
      ¬ NamesStayDistinct ⟨v, ⟨⟨"", []⟩, none⟩⟩ := by
  refine ⟨twoInitsVfs, twoInits_decoded, fun h => ?_⟩
  obtain ⟨hstat, -⟩ := (h [] _ rfl).2 "init" _ rfl [] _ (fun op hop => nomatch hop) rfl
  exact absurd hstat (by decide)

end Turnix
