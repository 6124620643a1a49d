import Mathlib.Logic.Function.Basic
import Turnix.Tty

/-!
# The virtual file system

`vfs.rs`: a flat list of entries and sixteen descriptors. A descriptor holds a name, not an entry;
every access looks the name up again and takes the first entry that has it. `write` pads the file
with zeros up to the descriptor's offset and then *appends*, so the offset decides where the bytes
go only when it is at or past the end: `write_at_offset_iff`.
-/

namespace Turnix

open Lib

/-- `MAX_OPEN_FILES`. -/
def maxOpenFiles : Nat := 16

/-- `FileType`. -/
inductive FileType
  | regular
  | directory
  | device
  | pipe
deriving DecidableEq, Repr

/-- `FileStat`. -/
structure FileStat where
  size : Nat
  fileType : FileType
deriving DecidableEq, Repr

/-- `FileDescriptor`. -/
structure FileDescriptor where
  name : String
  fileType : FileType
  offset : Nat
deriving DecidableEq, Repr

/-- `VfsEntry`. -/
structure VfsEntry where
  name : String
  fileType : FileType
  data : Option (List UInt8)
deriving DecidableEq, Repr

/-- `Vfs`. -/
structure Vfs where
  entries : List VfsEntry
  openFiles : Fin maxOpenFiles → Option FileDescriptor
  cwd : String

/-- `Vfs::new`. -/
def Vfs.new : Vfs := ⟨[], fun _ => none, "/"⟩

/-- `self.entries.iter().find(|e| e.name == name)`. -/
def Vfs.lookup (v : Vfs) (name : String) : Option VfsEntry := v.entries.find? (·.name = name)

/-- `self.open_files[fd_index]`, with the bounds test in front of it. -/
def Vfs.descriptor (v : Vfs) (fdIndex : Nat) : Option FileDescriptor :=
  if h : fdIndex < maxOpenFiles then v.openFiles ⟨fdIndex, h⟩ else none

/-- Assign `self.open_files[fd_index]`; an index out of range is tested before. -/
def Vfs.setDescriptor (v : Vfs) (fdIndex : Nat) (fd : Option FileDescriptor) : Vfs :=
  if h : fdIndex < maxOpenFiles then
    { v with openFiles := Function.update v.openFiles ⟨fdIndex, h⟩ fd }
  else v

/-- Replace the data of the first entry of that name. -/
def setData (name : String) (data : List UInt8) : List VfsEntry → List VfsEntry
  | [] => []
  | e :: es => if e.name = name then { e with data := some data } :: es else e :: setData name data es

/-- Assign the data of the first entry of that name, as `iter_mut().find(..)` reaches it. -/
def Vfs.putData (v : Vfs) (name : String) (data : List UInt8) : Vfs :=
  { v with entries := setData name data v.entries }

/-- The lowest descriptor that is not in use. -/
def Vfs.firstFree (v : Vfs) : Option (Fin maxOpenFiles) :=
  (List.finRange maxOpenFiles).find? fun j => (v.openFiles j).isNone

/-- The loop of `Vfs::open` over the entries; it goes on after a match if no descriptor is free. -/
def Vfs.openLoop (v : Vfs) (path : String) : List VfsEntry → Option Nat × Vfs
  | [] => (none, v)
  | e :: es =>
    if e.name = path then
      match v.firstFree with
      | some j => (some j, v.setDescriptor j (some ⟨path, e.fileType, 0⟩))
      | none => v.openLoop path es
    else v.openLoop path es

/-- `Vfs::open`. -/
def Vfs.open (v : Vfs) (path : String) : Option Nat × Vfs := v.openLoop path v.entries

/-- `Vfs::close`. -/
def Vfs.close (v : Vfs) (fdIndex : Nat) : Bool × Vfs :=
  match v.descriptor fdIndex with
  | some _ => (true, v.setDescriptor fdIndex none)
  | none => (false, v)

/-- What `Vfs::read` returns and leaves behind. -/
structure ReadResult where
  ret : Option Nat
  vfs : Vfs
  term : Terminal
  buf : List UInt8

/-- `buf[..src.len()].copy_from_slice(src)`. -/
def overwrite (buf src : List UInt8) : List UInt8 := src ++ buf.drop src.length

/-- `Vfs::read`. -/
def Vfs.read (v : Vfs) (term : Terminal) (fdIndex : Nat) (buf : List UInt8) : ReadResult :=
  match v.descriptor fdIndex with
  | none => ⟨none, v, term, buf⟩
  | some fd =>
    if fd.name = "tty" then
      match term.readLine with
      | (some line, term) =>
        let bytes := asBytes line
        let len := min buf.length bytes.length
        ⟨some len, v, term, overwrite buf (bytes.take len)⟩
      | (none, term) => ⟨some 0, v, term, buf⟩
    else
      match v.lookup fd.name with
      | none => ⟨none, v, term, buf⟩
      | some entry =>
        match entry.data with
        | none => ⟨none, v, term, buf⟩
        | some data =>
          let start := fd.offset
          if start ≥ data.length then ⟨some 0, v, term, buf⟩
          else
            let len := min buf.length (data.length - start)
            ⟨some len, v.setDescriptor fdIndex (some { fd with offset := fd.offset + len }), term,
              overwrite buf ((data.drop start).take len)⟩

/-- What `Vfs::write` returns and leaves behind. -/
structure WriteResult where
  ret : Option Nat
  vfs : Vfs
  term : Terminal

/-- An allocator that serves every request. -/
def ample : Nat → Bool := fun _ => true

/-- Grow a `Vec` from `old` bytes to `len`. It panics past `isize::MAX`, and if the heap does not serve it; `room` says
for which lengths there is spare capacity, or memory for what the `Vec` asks for. -/
def growTo (room : Nat → Bool) (old len : Nat) : Except Panic Unit := do
  ensure (len ≤ isizeMax) "capacity overflow"
  ensure (old < len → room len = true) "memory allocation failed"

/-- `data.resize(len, 0)`, for a length that is not below the one of `data`. -/
def resize (room : Nat → Bool) (data : List UInt8) (len : Nat) : Except Panic (List UInt8) := do
  growTo room data.length len
  return data ++ List.replicate (len - data.length) 0

/-- `data.extend_from_slice(buf)`. -/
def extendFromSlice (room : Nat → Bool) (data buf : List UInt8) : Except Panic (List UInt8) := do
  growTo room data.length (data.length + buf.length)
  return data ++ buf

/-- `Vfs::write`; `room` is what the heap can serve. -/
def Vfs.write (v : Vfs) (room : Nat → Bool) (term : Terminal) (fdIndex : Nat) (buf : List UInt8) :
    Except Panic WriteResult :=
  match v.descriptor fdIndex with
  | none => .ok ⟨none, v, term⟩
  | some fd =>
    if fd.name = "tty" then
      match fromUtf8 buf with
      | some s => .ok ⟨some buf.length, v, term.write s⟩
      | none => .ok ⟨none, v, term⟩
    else
      match v.lookup fd.name with
      | none => .ok ⟨none, v, term⟩
      | some entry =>
        match entry.data with
        | none => .ok ⟨none, v, term⟩
        | some data => do
          let start := fd.offset
          let data ← if start > data.length then resize room data start else pure data
          let data ← extendFromSlice room data buf
          let offset ← add64 fd.offset buf.length
          let v := v.putData fd.name data
          return ⟨some buf.length, v.setDescriptor fdIndex (some { fd with offset := offset }), term⟩

/-- The offset of a descriptor and the contents of the file behind it. The terminal is not a file. -/
def Vfs.fileAt (v : Vfs) (fdIndex : Nat) : Option (Nat × List UInt8) :=
  match v.descriptor fdIndex with
  | none => none
  | some fd => if fd.name = "tty" then none else ((v.lookup fd.name).bind VfsEntry.data).map (fd.offset, ·)

/-- A file of `old` bytes can take `n` more behind the larger of `offset` and its end. -/
def FileFits (room : Nat → Bool) (offset old n : Nat) : Prop :=
  max offset old + n ≤ isizeMax ∧ (old < offset → room offset = true) ∧
    (0 < n → room (max offset old + n) = true)

instance (room : Nat → Bool) (offset old n : Nat) : Decidable (FileFits room offset old n) :=
  inferInstanceAs (Decidable (_ ∧ (_ → _) ∧ (_ → _)))

/-- `Vfs::seek`. -/
def Vfs.seek (v : Vfs) (fdIndex : Nat) (offset : Nat) : Bool × Vfs :=
  match v.descriptor fdIndex with
  | some fd => (true, v.setDescriptor fdIndex (some { fd with offset := offset }))
  | none => (false, v)

/-- `Vfs::stat`. -/
def Vfs.stat (v : Vfs) (path : String) : Option FileStat :=
  (v.lookup path).map fun entry => ⟨(entry.data.map List.length).getD 0, entry.fileType⟩

/-- `Vfs::list_dir`. -/
def Vfs.listDir (v : Vfs) : List String := v.entries.map VfsEntry.name

/-- `Vfs::chdir`. -/
def Vfs.chdir (v : Vfs) (path : String) : Bool × Vfs :=
  if v.entries.any fun e => e.name = path ∧ e.fileType = .directory then
    (true, { v with cwd := path })
  else (false, v)

/-- `Vfs::mkdir`. -/
def Vfs.mkdir (v : Vfs) (path : String) : Bool × Vfs :=
  if v.entries.any (·.name = path) then (false, v)
  else (true, { v with entries := v.entries ++ [⟨path, .directory, some []⟩] })

/-- `Vfs::unlink`: the first entry of that name goes, and every descriptor that has the name. -/
def Vfs.unlink (v : Vfs) (path : String) : Bool × Vfs :=
  match v.entries.findIdx? (·.name = path) with
  | some index => (true, { v with
      entries := v.entries.eraseIdx index
      openFiles := fun j => (v.openFiles j).filter fun f => f.name ≠ path })
  | none => (false, v)

/-! ## Descriptors and entries -/

namespace VfsLemmas

theorem descriptor_lt {v : Vfs} {i : Nat} {fd : FileDescriptor} (h : v.descriptor i = some fd) :
    i < maxOpenFiles := by
  unfold Vfs.descriptor at h
  split at h
  · assumption
  · cases h

theorem descriptor_setDescriptor {v : Vfs} {i : Nat} (hi : i < maxOpenFiles)
    (fd : Option FileDescriptor) : (v.setDescriptor i fd).descriptor i = fd := by
  simp [Vfs.descriptor, Vfs.setDescriptor, hi]

theorem entries_setDescriptor (v : Vfs) (i : Nat) (fd : Option FileDescriptor) :
    (v.setDescriptor i fd).entries = v.entries := by
  unfold Vfs.setDescriptor
  split <;> rfl

theorem lookup_setDescriptor (v : Vfs) (i : Nat) (fd : Option FileDescriptor) (name : String) :
    (v.setDescriptor i fd).lookup name = v.lookup name := by
  rw [Vfs.lookup, entries_setDescriptor, Vfs.lookup]

theorem descriptor_setDescriptor_of_ne {v : Vfs} {i j : Nat} (hij : i ≠ j)
    (fd : Option FileDescriptor) : (v.setDescriptor j fd).descriptor i = v.descriptor i := by
  unfold Vfs.descriptor Vfs.setDescriptor
  split
  · next hi =>
    split
    · exact Function.update_of_ne (fun heq => hij (Fin.mk.inj heq)) _ _
    · rfl
  · rfl

theorem openLoop_full {v : Vfs} (hfull : v.firstFree = none) (path : String) :
    ∀ es : List VfsEntry, v.openLoop path es = (none, v)
  | [] => rfl
  | e :: es => by
    unfold Vfs.openLoop
    rw [hfull]
    dsimp only
    split <;> exact openLoop_full hfull path es

theorem openLoop_cases (v : Vfs) (path : String) : ∀ es : List VfsEntry,
    ((es.find? (·.name = path) = none ∨ v.firstFree = none) ∧ v.openLoop path es = (none, v)) ∨
    ∃ j e, v.firstFree = some j ∧ es.find? (·.name = path) = some e ∧
      v.openLoop path es = (some j.val, v.setDescriptor j (some ⟨path, e.fileType, 0⟩))
  | [] => .inl ⟨.inl rfl, rfl⟩
  | e :: es => by
    by_cases he : e.name = path
    · cases hfree : v.firstFree with
      | none => exact .inl ⟨.inr rfl, openLoop_full hfree path _⟩
      | some j =>
        refine .inr ⟨j, e, rfl, List.find?_cons_of_pos (by simpa using he), ?_⟩
        rw [Vfs.openLoop, if_pos he, hfree]
    · rw [Vfs.openLoop, if_neg he, List.find?_cons_of_neg (by simpa using he)]
      exact openLoop_cases v path es

/-- `open` takes the lowest free descriptor, for the first entry with the name. -/
theorem open_cases (v : Vfs) (path : String) :
    ((v.lookup path = none ∨ v.firstFree = none) ∧ v.open path = (none, v)) ∨
    ∃ j e, v.firstFree = some j ∧ v.lookup path = some e ∧
      v.open path = (some j.val, v.setDescriptor j (some ⟨path, e.fileType, 0⟩)) :=
  openLoop_cases v path v.entries

theorem firstFree_free {v : Vfs} {j : Fin maxOpenFiles} (h : v.firstFree = some j) :
    v.descriptor j = none := by
  have hnone := List.find?_some (p := fun j => (v.openFiles j).isNone) h
  rw [Vfs.descriptor, dif_pos j.isLt]
  exact Option.isNone_iff_eq_none.mp hnone

theorem find_setData (name : String) (data : List UInt8) : ∀ es : List VfsEntry,
    (setData name data es).find? (·.name = name) =
      (es.find? (·.name = name)).map fun e => { e with data := some data }
  | [] => rfl
  | e :: es => by
    by_cases he : e.name = name
    · simp [setData, he]
    · simp [setData, he, find_setData name data es]

theorem lookup_putData {v : Vfs} {name : String} {entry : VfsEntry}
    (h : v.lookup name = some entry) (data : List UInt8) :
    (v.putData name data).lookup name = some { entry with data := some data } := by
  unfold Vfs.lookup at h ⊢
  rw [Vfs.putData, find_setData, h]
  rfl

theorem seek_descriptor {v : Vfs} {i : Nat} {fd : FileDescriptor} (h : v.descriptor i = some fd)
    (o : Nat) : (v.seek i o).2 = v.setDescriptor i (some { fd with offset := o }) := by
  simp [Vfs.seek, h]

/-- The file as `write` finds it after its `resize`. -/
def padTo (o : Nat) (d : List UInt8) : List UInt8 :=
  if o > d.length then d ++ List.replicate (o - d.length) 0 else d

theorem length_padTo (o : Nat) (d : List UInt8) : (padTo o d).length = max o d.length := by
  unfold padTo
  split
  · rw [List.length_append, List.length_replicate]
    omega
  · omega

theorem getElem?_padTo_of_lt {o k : Nat} {d : List UInt8} (hk : k < d.length) :
    (padTo o d)[k]? = d[k]? := by
  unfold padTo
  split
  · exact List.getElem?_append_left hk
  · rfl

/-- The gap between the end of the file and the offset is filled with zeros. -/
theorem getElem?_padTo_of_gap {o k : Nat} {d : List UInt8} (hk : d.length ≤ k) (hko : k < o) :
    (padTo o d)[k]? = some 0 := by
  rw [padTo, if_pos (by omega), List.getElem?_append_right hk, List.getElem?_replicate,
    if_pos (by omega)]

theorem growTo_eq_ok {room : Nat → Bool} {old len : Nat} :
    growTo room old len = .ok () ↔ len ≤ isizeMax ∧ (old < len → room len = true) := by
  unfold growTo ensure
  by_cases hlen : len ≤ isizeMax
  · rw [if_pos hlen]
    show (if old < len → room len = true then Except.ok () else _) = _ ↔ _
    by_cases hroom : old < len → room len = true
    · rw [if_pos hroom]
      exact iff_of_true rfl ⟨hlen, hroom⟩
    · rw [if_neg hroom]
      exact iff_of_false (fun h => by cases h) fun h => hroom h.2
  · rw [if_neg hlen]
    exact iff_of_false (fun h => by cases h) fun h => hlen h.1

/-- The two growths of `write`: up to the offset, and by the bytes of the buffer. -/
theorem fileFits_iff {room : Nat → Bool} {o : Nat} {d b : List UInt8} : FileFits room o d.length b.length ↔
    (o > d.length → growTo room d.length o = .ok ()) ∧
      growTo room (padTo o d).length ((padTo o d).length + b.length) = .ok () := by
  unfold FileFits
  rw [growTo_eq_ok, growTo_eq_ok, length_padTo]
  constructor
  · rintro ⟨hlen, hgap, hmore⟩
    exact ⟨fun ho => ⟨by omega, hgap⟩, hlen, fun h => hmore (by omega)⟩
  · rintro ⟨hgap, hlen, hmore⟩
    exact ⟨hlen, fun ho => (hgap ho).2 ho, fun h => hmore (by omega)⟩

variable {room : Nat → Bool} {v : Vfs} {i : Nat} {fd : FileDescriptor} {entry : VfsEntry} {d b : List UInt8}

/-- A `write` to a file is its two growths and the bookkeeping. -/
theorem write_eq (term : Terminal) (hfd : v.descriptor i = some fd) (htty : fd.name ≠ "tty")
    (hentry : v.lookup fd.name = some entry) (hdata : entry.data = some d) : v.write room term i b = do
      if fd.offset > d.length then growTo room d.length fd.offset
      growTo room (padTo fd.offset d).length ((padTo fd.offset d).length + b.length)
      let offset ← add64 fd.offset b.length
      return ⟨some b.length, (v.putData fd.name (padTo fd.offset d ++ b)).setDescriptor i
        (some { fd with offset := offset }), term⟩ := by
  unfold Vfs.write
  simp only [hfd, htty, ↓reduceIte, hentry, hdata]
  unfold padTo resize extendFromSlice
  by_cases ho : fd.offset > d.length
  · rw [if_pos ho, if_pos ho, if_pos ho]
    cases growTo room d.length fd.offset with
    | error p => rfl
    | ok _ =>
      show (growTo room _ _ >>= _) >>= _ = growTo room _ _ >>= _
      cases growTo room _ _ <;> rfl
  · rw [if_neg ho, if_neg ho, if_neg ho]
    show (growTo room _ _ >>= _) >>= _ = growTo room _ _ >>= _
    cases growTo room _ _ <;> rfl

/-- A `write` to a file that can take it: the bytes go behind the padded contents. -/
theorem write_file (term : Terminal) (hfd : v.descriptor i = some fd) (htty : fd.name ≠ "tty")
    (hentry : v.lookup fd.name = some entry) (hdata : entry.data = some d)
    (hfits : FileFits room fd.offset d.length b.length) : v.write room term i b = .ok ⟨some b.length,
      (v.putData fd.name (padTo fd.offset d ++ b)).setDescriptor i
        (some { fd with offset := fd.offset + b.length }), term⟩ := by
  have hadd : add64 fd.offset b.length = .ok (fd.offset + b.length) := by
    have hmax := hfits.1
    unfold isizeMax at hmax
    exact if_pos (by omega)
  obtain ⟨hgap, hmore⟩ := fileFits_iff.mp hfits
  rw [write_eq term hfd htty hentry hdata, hmore, hadd]
  by_cases ho : fd.offset > d.length
  · rw [if_pos ho, hgap ho]
    rfl
  · rw [if_neg ho]
    rfl

/-- A `write` to a file that cannot take it panics. -/
theorem write_file_panics (term : Terminal) (hfd : v.descriptor i = some fd) (htty : fd.name ≠ "tty")
    (hentry : v.lookup fd.name = some entry) (hdata : entry.data = some d)
    (hfull : ¬ FileFits room fd.offset d.length b.length) : ∃ p, v.write room term i b = .error p := by
  have hmore : ∀ {o : Nat}, (∃ p, growTo room (padTo o d).length ((padTo o d).length + b.length) = .error p) ∨
      growTo room (padTo o d).length ((padTo o d).length + b.length) = .ok () := by
    intro o
    cases growTo room (padTo o d).length ((padTo o d).length + b.length) with
    | error p => exact .inl ⟨p, rfl⟩
    | ok _ => exact .inr rfl
  rw [fileFits_iff] at hfull
  rw [write_eq term hfd htty hentry hdata]
  by_cases ho : fd.offset > d.length
  · rw [if_pos ho]
    cases hgap : growTo room d.length fd.offset with
    | error p => exact ⟨p, rfl⟩
    | ok _ =>
      obtain ⟨p, hp⟩ := hmore.resolve_right fun h => hfull ⟨fun _ => hgap, h⟩
      rw [hp]
      exact ⟨p, rfl⟩
  · rw [if_neg ho]
    obtain ⟨p, hp⟩ := hmore.resolve_right fun h => hfull ⟨fun h => absurd h ho, h⟩
    rw [hp]
    exact ⟨p, rfl⟩

/-- A `write` to a file that returns has written everything. -/
theorem write_file_ret {term : Terminal} {r : WriteResult} (hfd : v.descriptor i = some fd) (htty : fd.name ≠ "tty")
    (hentry : v.lookup fd.name = some entry) (hdata : entry.data = some d) (h : v.write room term i b = .ok r) :
    r.ret = some b.length := by
  by_cases hfits : FileFits room fd.offset d.length b.length
  · rw [write_file term hfd htty hentry hdata hfits] at h
    cases h
    rfl
  · obtain ⟨p, hp⟩ := write_file_panics term hfd htty hentry hdata hfits
    rw [hp] at h
    cases h

theorem fileAt_eq_some {o : Nat} : v.fileAt i = some (o, d) ↔ ∃ fd entry, v.descriptor i = some fd ∧
    fd.name ≠ "tty" ∧ v.lookup fd.name = some entry ∧ entry.data = some d ∧ fd.offset = o := by
  unfold Vfs.fileAt
  constructor
  · intro h
    split at h
    · cases h
    · next fd hfd =>
      split at h
      · cases h
      · next htty =>
        obtain ⟨data, hdata, heq⟩ := Option.map_eq_some_iff.mp h
        obtain ⟨entry, hentry, hdata⟩ := Option.bind_eq_some_iff.mp hdata
        cases heq
        exact ⟨fd, entry, hfd, htty, hentry, hdata, rfl⟩
  · rintro ⟨fd, entry, hfd, htty, hentry, hdata, rfl⟩
    simp only [hfd, htty, ↓reduceIte, hentry, Option.bind_some, hdata, Option.map_some]

/-- A `write` panics exactly if there is a file that cannot take the bytes. -/
theorem write_panics_iff (term : Terminal) : (∃ p, v.write room term i b = .error p) ↔
    ∃ o old, v.fileAt i = some (o, old) ∧ ¬ FileFits room o old.length b.length := by
  constructor
  · rintro ⟨p, hp⟩
    by_cases hfile : ∃ o old, v.fileAt i = some (o, old)
    · obtain ⟨o, old, hfile⟩ := hfile
      obtain ⟨fd, entry, hfd, htty, hentry, hdata, rfl⟩ := fileAt_eq_some.mp hfile
      refine ⟨_, old, hfile, fun hfits => ?_⟩
      rw [write_file term hfd htty hentry hdata hfits] at hp
      cases hp
    · -- without a file nothing grows
      exfalso
      unfold Vfs.write at hp
      split at hp
      · cases hp
      · next fd hfd =>
        split at hp
        · split at hp <;> cases hp
        · next htty =>
          split at hp
          · cases hp
          · next entry hentry =>
            split at hp
            · cases hp
            · next old hdata =>
              exact hfile ⟨_, old, fileAt_eq_some.mpr ⟨fd, entry, hfd, htty, hentry, hdata, rfl⟩⟩
  · rintro ⟨o, old, hfile, hfull⟩
    obtain ⟨fd, entry, hfd, htty, hentry, hdata, rfl⟩ := fileAt_eq_some.mp hfile
    exact write_file_panics term hfd htty hentry hdata hfull

/-- A `write` after a `seek`. -/
theorem seek_write {term : Terminal} {o : Nat} (hfd : v.descriptor i = some fd) (htty : fd.name ≠ "tty")
    (hentry : v.lookup fd.name = some entry) (hdata : entry.data = some d)
    (hfits : FileFits room o d.length b.length) :
    (v.seek i o).2.write room term i b = .ok ⟨some b.length,
      (v.putData fd.name (padTo o d ++ b)).setDescriptor i
        (some { fd with offset := o + b.length }), term⟩ := by
  have hi := descriptor_lt hfd
  have hmoved := descriptor_setDescriptor (v := v) hi (some { fd with offset := o })
  have hsame := (lookup_setDescriptor v i (some { fd with offset := o }) fd.name).trans hentry
  rw [seek_descriptor hfd, write_file term hmoved htty hsame hdata hfits]
  simp only [Vfs.putData, Vfs.setDescriptor, hi, ↓reduceDIte, Function.update_idem]

theorem seek_write_panics (term : Terminal) {o : Nat} (hfd : v.descriptor i = some fd) (htty : fd.name ≠ "tty")
    (hentry : v.lookup fd.name = some entry) (hdata : entry.data = some d)
    (hfull : ¬ FileFits room o d.length b.length) : ∃ p, (v.seek i o).2.write room term i b = .error p := by
  have hmoved := descriptor_setDescriptor (v := v) (descriptor_lt hfd) (some { fd with offset := o })
  have hsame := (lookup_setDescriptor v i (some { fd with offset := o }) fd.name).trans hentry
  rw [seek_descriptor hfd]
  exact write_file_panics term hmoved htty hsame hdata hfull

theorem fileFits_ample {o old n : Nat} : FileFits ample o old n ↔ max o old + n ≤ isizeMax :=
  ⟨fun h => h.1, fun h => ⟨h, fun _ => rfl, fun _ => rfl⟩⟩

/-- A `read` after a `seek` on a file with data. -/
theorem seek_read (term : Terminal) {o : Nat} (buf : List UInt8) (hfd : v.descriptor i = some fd)
    (htty : fd.name ≠ "tty") (hentry : v.lookup fd.name = some entry) (hdata : entry.data = some d)
    (ho : o < d.length) :
    ((v.seek i o).2.read term i buf).ret = some (min buf.length (d.length - o)) ∧
    ((v.seek i o).2.read term i buf).buf =
      overwrite buf ((d.drop o).take (min buf.length (d.length - o))) := by
  have hi := descriptor_lt hfd
  rw [seek_descriptor hfd]
  unfold Vfs.read
  rw [descriptor_setDescriptor hi]
  have ho' : ¬ o ≥ d.length := by omega
  simp only [htty, ↓reduceIte, lookup_setDescriptor, hentry, hdata, ho', and_self]

end VfsLemmas

open VfsLemmas

/-! ## Writing at an offset -/

/-- The law of a write at offset `o`, on the file `name` with contents `d` behind descriptor
`fdIndex`: after `seek` and a `write` that returns the length of `b`, the bytes of `b` are at `o`,
a gap before them is zero, every other byte is as before and the descriptor stands behind them;
and a `seek` back with a `read` of as many bytes returns `b`. The heap has room for the file. -/
def WritesAtOffset (v : Vfs) (term : Terminal) (fdIndex : Nat) (name : String) (d : List UInt8)
    (o : Nat) (b : List UInt8) : Prop :=
  ∃ r, (v.seek fdIndex o).2.write ample term fdIndex b = .ok r ∧ r.ret = some b.length ∧
    (∃ d', (r.vfs.lookup name).bind VfsEntry.data = some d' ∧
      d'.length = max d.length (o + b.length) ∧
      (∀ k, o ≤ k → k < o + b.length → d'[k]? = b[k - o]?) ∧
      (∀ k, d.length ≤ k → k < o → d'[k]? = some 0) ∧
      (∀ k, k < d.length → k < o ∨ o + b.length ≤ k → d'[k]? = d[k]?)) ∧
    (r.vfs.descriptor fdIndex).map FileDescriptor.offset = some (o + b.length) ∧
    ∀ buf : List UInt8, buf.length = b.length →
      ((r.vfs.seek fdIndex o).2.read r.term fdIndex buf).ret = some b.length ∧
      ((r.vfs.seek fdIndex o).2.read r.term fdIndex buf).buf = b

/-- `write` obeys the law exactly when the offset is at or past the end of the file. Before the end
it does not overwrite: it appends, and the file grows by the whole length of the buffer. -/
theorem write_at_offset_iff {v : Vfs} {term : Terminal} {i o : Nat} {fd : FileDescriptor}
    {entry : VfsEntry} {d b : List UInt8} (hfd : v.descriptor i = some fd) (htty : fd.name ≠ "tty")
    (hentry : v.lookup fd.name = some entry) (_hreg : entry.fileType = .regular)
    (hdata : entry.data = some d) (hb : b ≠ []) (ho : o + b.length ≤ isizeMax) :
    WritesAtOffset v term i fd.name d o b ↔ d.length ≤ o := by
  have hblen : 0 < b.length := List.length_pos_iff.mpr hb
  have hi := descriptor_lt hfd
  have hpad := length_padTo o d
  constructor
  · rintro ⟨r, hr, -, ⟨d', hd', hlen, -⟩, -⟩
    by_contra hlt
    by_cases hfits : (padTo o d).length + b.length ≤ isizeMax
    · rw [seek_write hfd htty hentry hdata (fileFits_ample.mpr (by omega))] at hr
      cases hr
      rw [lookup_setDescriptor, lookup_putData hentry] at hd'
      cases hd'
      rw [List.length_append] at hlen
      omega
    · have hfull : ¬ FileFits ample o d.length b.length := by
        rw [fileFits_ample]
        omega
      obtain ⟨p, hp⟩ := seek_write_panics term hfd htty hentry hdata hfull
      rw [hp] at hr
      cases hr
  · intro hle
    have hfits : (padTo o d).length + b.length ≤ isizeMax := by omega
    have hplen : (padTo o d).length = o := by omega
    refine ⟨_, seek_write hfd htty hentry hdata (fileFits_ample.mpr (by omega)), rfl,
      ⟨padTo o d ++ b, ?_, ?_, ?_, ?_, ?_⟩, ?_, ?_⟩
    · rw [lookup_setDescriptor, lookup_putData hentry]
      rfl
    · rw [List.length_append]
      omega
    · intro k hk _
      rw [List.getElem?_append_right (by omega), hplen]
    · intro k hk hko
      rw [List.getElem?_append_left (by omega), getElem?_padTo_of_gap hk hko]
    · intro k hk _
      rw [List.getElem?_append_left (by omega), getElem?_padTo_of_lt hk]
    · rw [descriptor_setDescriptor hi]
      rfl
    · intro buf hbuf
      have hfd' := descriptor_setDescriptor (v := v.putData fd.name (padTo o d ++ b)) hi
        (some { fd with offset := o + b.length })
      have hlook := (lookup_setDescriptor _ i (some { fd with offset := o + b.length }) _).trans
        (lookup_putData hentry (padTo o d ++ b))
      have hlt : o < (padTo o d ++ b).length := by
        rw [List.length_append]
        omega
      obtain ⟨hret, hout⟩ := seek_read term buf hfd' htty hlook rfl hlt
      have hmin : min buf.length ((padTo o d ++ b).length - o) = b.length := by
        rw [List.length_append]
        omega
      rw [hmin] at hret hout
      refine ⟨hret, hout.trans ?_⟩
      have hdrop : (padTo o d ++ b).drop o = b := List.drop_left' hplen
      rw [hdrop, List.take_length, overwrite, ← hbuf, List.drop_length, List.append_nil]

/-- One regular file of three bytes, open as descriptor 0. -/
def sampleVfs : Vfs :=
  ⟨[⟨"notes", .regular, some [1, 2, 3]⟩],
    fun j => if j.val = 0 then some ⟨"notes", .regular, 0⟩ else none, "/"⟩

theorem sampleVfs_descriptor : sampleVfs.descriptor 0 = some ⟨"notes", .regular, 0⟩ := rfl

theorem sampleVfs_lookup :
    sampleVfs.lookup "notes" = some ⟨"notes", .regular, some [1, 2, 3]⟩ := rfl

/-- At the end of the file the law holds. -/
theorem write_at_offset_at_end :
    WritesAtOffset sampleVfs ⟨⟨"", []⟩, none⟩ 0 "notes" [1, 2, 3] 3 [9] :=
  (write_at_offset_iff sampleVfs_descriptor (by decide) sampleVfs_lookup rfl rfl (by decide)
    (by decide)).mpr (by decide)

/-- Writing one byte at offset 0 of a file of three bytes gives a file of four. -/
theorem write_before_end_appends :
    ¬ WritesAtOffset sampleVfs ⟨⟨"", []⟩, none⟩ 0 "notes" [1, 2, 3] 0 [9] := by
  rintro ⟨r, hr, -, ⟨d', hd', hlen, -⟩, -⟩
  rw [seek_write sampleVfs_descriptor (by decide) sampleVfs_lookup rfl (fileFits_ample.mpr (by decide))] at hr
  cases hr
  cases hd'
  exact absurd hlen (by decide)

end Turnix
