import Turnix.VfsRuns

/-!
# What an operation leaves alone

All users of the file system share one table of entries and one table of descriptors.
`operations_framed` says for each of the eight operations that a failure changes nothing, and what at most
a success changes.
-/

namespace Turnix

open Lib

/-- The entries and the working directory are kept, and every descriptor but the named one. -/
structure KeepsBut (fdIndex : Nat) (v v' : Vfs) : Prop where
  entries : v'.entries = v.entries
  cwd : v'.cwd = v.cwd
  others : ∀ j, j ≠ fdIndex → v'.descriptor j = v.descriptor j

/-- The lowest empty slot is filled, and nothing else is changed. -/
structure FillsLowest (slot : Nat) (v v' : Vfs) : Prop where
  keeps : KeepsBut slot v v'
  inRange : slot < maxOpenFiles
  wasEmpty : v.descriptor slot = none
  lowest : ∀ j, j < slot → v.descriptor j ≠ none
  filled : v'.descriptor slot ≠ none

/-- Only the offset of the descriptor and the data of the first entry with its name are changed. -/
structure WritesOne (fdIndex : Nat) (v v' : Vfs) : Prop where
  cwd : v'.cwd = v.cwd
  others : ∀ j, j ≠ fdIndex → v'.descriptor j = v.descriptor j
  through : ∃ fd, v.descriptor fdIndex = some fd ∧
    (∃ offset, v'.descriptor fdIndex = some { fd with offset := offset }) ∧
    (v'.entries = v.entries ∨ ∃ before e after data, v.entries = before ++ e :: after ∧
      (∀ x ∈ before, x.name ≠ fd.name) ∧ e.name = fd.name ∧
      v'.entries = before ++ { e with data := data } :: after)

/-- One entry with the name is put behind the others. -/
structure AddsEntry (path : String) (v v' : Vfs) : Prop where
  cwd : v'.cwd = v.cwd
  descriptors : ∀ j, v'.descriptor j = v.descriptor j
  entries : ∃ e, e.name = path ∧ v'.entries = v.entries ++ [e]

/-- The first entry with the name is taken out, the others keep their order, and a descriptor of another
name stays. -/
structure RemovesEntry (path : String) (v v' : Vfs) : Prop where
  cwd : v'.cwd = v.cwd
  descriptors : ∀ j, (∀ fd, v.descriptor j = some fd → fd.name ≠ path) →
    v'.descriptor j = v.descriptor j
  entries : ∃ before e after, v.entries = before ++ e :: after ∧ (∀ x ∈ before, x.name ≠ path) ∧
    e.name = path ∧ v'.entries = before ++ after

/-- A failure keeps everything, and a success what it has to. -/
structure OperationsFramed (v : Vfs) (term : Terminal) : Prop where
  opens : ∀ path, ((v.open path).1 = none → (v.open path).2 = v) ∧
    ∀ slot, (v.open path).1 = some slot → FillsLowest slot v (v.open path).2
  closes : ∀ fdIndex, ((v.close fdIndex).1 = false → (v.close fdIndex).2 = v) ∧
    ((v.close fdIndex).1 = true → KeepsBut fdIndex v (v.close fdIndex).2)
  reads : ∀ fdIndex buf, ((v.read term fdIndex buf).ret = none → (v.read term fdIndex buf).vfs = v) ∧
    ∀ n, (v.read term fdIndex buf).ret = some n → KeepsBut fdIndex v (v.read term fdIndex buf).vfs
  writes : ∀ room fdIndex buf r, v.write room term fdIndex buf = .ok r →
    (r.ret = none → r.vfs = v) ∧ ∀ n, r.ret = some n → WritesOne fdIndex v r.vfs
  seeks : ∀ fdIndex offset, ((v.seek fdIndex offset).1 = false → (v.seek fdIndex offset).2 = v) ∧
    ((v.seek fdIndex offset).1 = true → KeepsBut fdIndex v (v.seek fdIndex offset).2)
  chdirs : ∀ path, ((v.chdir path).1 = false → (v.chdir path).2 = v) ∧
    ((v.chdir path).1 = true → (v.chdir path).2 = { v with cwd := path })
  mkdirs : ∀ path, ((v.mkdir path).1 = false → (v.mkdir path).2 = v) ∧
    ((v.mkdir path).1 = true → AddsEntry path v (v.mkdir path).2)
  unlinks : ∀ path, ((v.unlink path).1 = false → (v.unlink path).2 = v) ∧
    ((v.unlink path).1 = true → RemovesEntry path v (v.unlink path).2)

open VfsLemmas VfsRunLemmas

namespace VfsFrameLemmas

variable {v v' : Vfs} {path : String}

theorem cwd_setDescriptor (v : Vfs) (i : Nat) (x : Option FileDescriptor) :
    (v.setDescriptor i x).cwd = v.cwd := by
  unfold Vfs.setDescriptor
  split <;> rfl

theorem keepsBut_refl (v : Vfs) (i : Nat) : KeepsBut i v v := ⟨rfl, rfl, fun _ _ => rfl⟩

theorem keepsBut_setDescriptor (v : Vfs) (i : Nat) (x : Option FileDescriptor) :
    KeepsBut i v (v.setDescriptor i x) :=
  ⟨entries_setDescriptor v i x, cwd_setDescriptor v i x, fun _ hj => descriptor_setDescriptor_of_ne hj x⟩

theorem firstFree_lowest {slot : Fin maxOpenFiles} (h : v.firstFree = some slot) :
    ∀ j, j < slot.val → v.descriptor j ≠ none := by
  intro j hj hnone
  obtain ⟨-, i, hi, hget, hbefore⟩ := List.find?_eq_some_iff_getElem.mp h
  have hij : i = slot.val := by
    rw [← hget, List.getElem_finRange]
    rfl
  have htest := hbefore j (by omega)
  rw [List.getElem_finRange] at htest
  rw [Vfs.descriptor, dif_pos (Nat.lt_trans hj slot.isLt)] at hnone
  simp [hnone] at htest

theorem open_framed (v : Vfs) (path : String) : ((v.open path).1 = none → (v.open path).2 = v) ∧
    ∀ slot, (v.open path).1 = some slot → FillsLowest slot v (v.open path).2 := by
  rcases open_cases v path with ⟨-, heq⟩ | ⟨j, e, hfree, -, heq⟩
  · rw [heq]
    exact ⟨fun _ => rfl, fun _ h => absurd h.symm (Option.some_ne_none _)⟩
  · rw [heq]
    refine ⟨fun h => absurd h (Option.some_ne_none _), fun slot h => ?_⟩
    cases h
    refine ⟨keepsBut_setDescriptor v j _, j.isLt, firstFree_free hfree, firstFree_lowest hfree, ?_⟩
    rw [descriptor_setDescriptor j.isLt]
    exact Option.some_ne_none _

theorem read_keepsBut (v : Vfs) (term : Terminal) (fdIndex : Nat) (buf : List UInt8) :
    KeepsBut fdIndex v (v.read term fdIndex buf).vfs := by
  rcases read_cases v term fdIndex buf with heq | ⟨d, offset, n, -, -, heq⟩
  · rw [heq]
    exact keepsBut_refl v fdIndex
  · rw [heq]
    exact keepsBut_setDescriptor v fdIndex _

theorem setData_split {name : String} (data : List UInt8) : ∀ {es : List VfsEntry} {e : VfsEntry},
    es.find? (·.name = name) = some e → ∃ before after, es = before ++ e :: after ∧
      (∀ x ∈ before, x.name ≠ name) ∧ e.name = name ∧
      setData name data es = before ++ { e with data := some data } :: after
  | [], _, h => by cases h
  | x :: es, e, h => by
    by_cases hx : x.name = name
    · rw [List.find?_cons_of_pos (by simpa using hx)] at h
      cases h
      exact ⟨[], es, rfl, fun _ hx => absurd hx List.not_mem_nil, hx, by rw [setData, if_pos hx]; rfl⟩
    · rw [List.find?_cons_of_neg (by simpa using hx)] at h
      obtain ⟨before, after, rfl, hbefore, he, hset⟩ := setData_split data h
      refine ⟨x :: before, after, rfl, fun y hy => ?_, he, by rw [setData, if_neg hx, hset]; rfl⟩
      rcases List.mem_cons.mp hy with rfl | hy
      · exact hx
      · exact hbefore y hy

theorem eraseIdx_split {name : String} : ∀ {es : List VfsEntry} {index : Nat},
    es.findIdx? (·.name = name) = some index → ∃ before e after, es = before ++ e :: after ∧
      (∀ x ∈ before, x.name ≠ name) ∧ e.name = name ∧ es.eraseIdx index = before ++ after
  | [], _, h => by cases h
  | x :: es, index, h => by
    rw [List.findIdx?_cons] at h
    split at h
    · next hx =>
      cases h
      exact ⟨[], x, es, rfl, fun _ hx => absurd hx List.not_mem_nil, of_decide_eq_true hx, rfl⟩
    · next hx =>
      obtain ⟨i, hi, rfl⟩ := Option.map_eq_some_iff.mp h
      obtain ⟨before, e, after, rfl, hbefore, he, herase⟩ := eraseIdx_split hi
      refine ⟨x :: before, e, after, rfl, fun y hy => ?_, he, by rw [List.eraseIdx_cons_succ, herase]; rfl⟩
      rcases List.mem_cons.mp hy with rfl | hy
      · exact fun hname => hx (decide_eq_true hname)
      · exact hbefore y hy

theorem read_framed (v : Vfs) (term : Terminal) (fdIndex : Nat) (buf : List UInt8) :
    ((v.read term fdIndex buf).ret = none → (v.read term fdIndex buf).vfs = v) ∧
    ∀ n, (v.read term fdIndex buf).ret = some n →
      KeepsBut fdIndex v (v.read term fdIndex buf).vfs := by
  refine ⟨fun hnone => ?_, fun _ _ => read_keepsBut v term fdIndex buf⟩
  rcases read_cases v term fdIndex buf with heq | ⟨d, offset, n, -, hsome, -⟩
  · exact heq
  · rw [hsome] at hnone
    exact absurd hnone (Option.some_ne_none n)

theorem write_framed {room : Nat → Bool} {term : Terminal} {fdIndex : Nat} {buf : List UInt8} {r : WriteResult}
    (h : v.write room term fdIndex buf = .ok r) :
    (r.ret = none → r.vfs = v) ∧ ∀ n, r.ret = some n → WritesOne fdIndex v r.vfs := by
  rcases write_cases h with ⟨hnone, heq, -⟩ | ⟨d, hd, -, heq⟩ |
    ⟨d, e, old, data, offset, hd, -, he, -, hsome, heq⟩
  · refine ⟨fun _ => heq, fun n hn => ?_⟩
    rw [hnone] at hn
    cases hn
  · refine ⟨fun _ => heq, fun _ _ => ?_⟩
    rw [heq]
    exact ⟨rfl, fun _ _ => rfl, d, hd, ⟨d.offset, hd⟩, .inl rfl⟩
  · refine ⟨fun hnone => ?_, fun _ _ => ?_⟩
    · rw [hsome] at hnone
      exact absurd hnone (Option.some_ne_none _)
    · have hkeeps := keepsBut_setDescriptor (v.putData d.name data) fdIndex
        (some { d with offset := offset })
      rw [heq]
      refine ⟨hkeeps.cwd, hkeeps.others, d, hd, ⟨offset, descriptor_setDescriptor (descriptor_lt hd) _⟩,
        .inr ?_⟩
      obtain ⟨before, after, hsplit, hbefore, hname, hset⟩ := setData_split data he
      exact ⟨before, e, after, some data, hsplit, hbefore, hname, hkeeps.entries.trans hset⟩

theorem unlink_framed (v : Vfs) (path : String) :
    ((v.unlink path).1 = false → (v.unlink path).2 = v) ∧
    ((v.unlink path).1 = true → RemovesEntry path v (v.unlink path).2) := by
  unfold Vfs.unlink
  split
  · next index hindex =>
    refine ⟨fun h => Bool.noConfusion h, fun _ => ⟨rfl, fun j hj => ?_, eraseIdx_split hindex⟩⟩
    unfold Vfs.descriptor at hj ⊢
    split
    · next hlt =>
      rw [dif_pos hlt] at hj
      show (v.openFiles ⟨j, hlt⟩).filter _ = v.openFiles ⟨j, hlt⟩
      cases hopen : v.openFiles ⟨j, hlt⟩ with
      | none => rfl
      | some fd => exact Option.filter_eq_some_iff.mpr ⟨rfl, decide_eq_true (hj fd hopen)⟩
    · rfl
  · exact ⟨fun _ => rfl, fun h => Bool.noConfusion h⟩

end VfsFrameLemmas

open VfsFrameLemmas

/-- Every operation, in every state of the file system: where it reports a failure nothing has changed, and
where it succeeds only what it is about. -/
theorem operations_framed (v : Vfs) (term : Terminal) : OperationsFramed v term where
  opens := open_framed v
  closes fdIndex := by
    unfold Vfs.close
    split
    · exact ⟨fun h => Bool.noConfusion h, fun _ => keepsBut_setDescriptor v fdIndex none⟩
    · exact ⟨fun _ => rfl, fun h => Bool.noConfusion h⟩
  reads := read_framed v term
  writes _ _ _ _ := write_framed
  seeks fdIndex offset := by
    unfold Vfs.seek
    split
    · exact ⟨fun h => Bool.noConfusion h, fun _ => keepsBut_setDescriptor v fdIndex _⟩
    · exact ⟨fun _ => rfl, fun h => Bool.noConfusion h⟩
  chdirs path := by
    unfold Vfs.chdir
    split
    · exact ⟨fun h => Bool.noConfusion h, fun _ => rfl⟩
    · exact ⟨fun _ => rfl, fun h => Bool.noConfusion h⟩
  mkdirs path := by
    unfold Vfs.mkdir
    split
    · exact ⟨fun _ => rfl, fun h => Bool.noConfusion h⟩
    · exact ⟨fun h => Bool.noConfusion h, fun _ => ⟨rfl, fun _ => rfl, _, rfl, rfl⟩⟩
  unlinks := unlink_framed v

end Turnix
