import Turnix.Vfs

/-!
# The ramdisk

`init_from_ramdisk` of `vfs.rs` and `add_file` of `tools/xtask`. A record is a name of 64 bytes, padded
with zeros, the size of the file in 8 bytes, and the file. That the allocation of a `Vec` or a `String`
may fail is not modelled.

`ramdisk_round_trip` says what the kernel makes of an image of `xtask` that is cut off anywhere, and
`ramdisk_total_iff` for which images at all it comes to an end without a panic: the sum `offset +
file_size` is not checked, so a record that claims almost `2 ^ 64` bytes panics.
-/

namespace Turnix

open Lib

/-! ## The decoder -/

/-- The four entries of `init_defaults`. -/
def defaultEntries : List VfsEntry :=
  [⟨".", .directory, none⟩, ⟨"dev", .directory, none⟩, ⟨"null", .device, none⟩, ⟨"tty", .device, none⟩]

/-- `Vfs::init_defaults`. -/
def Vfs.initDefaults (v : Vfs) : Vfs := { v with entries := v.entries ++ defaultEntries }

/-- One turn of the loop of `init_from_ramdisk`: the entry and the next offset, or `none` when the loop
ends. -/
def ramdiskRecord (data : List UInt8) (offset : Nat) : Except Panic (Option (VfsEntry × Nat)) := do
  if (← add64 offset 72) ≤ data.length then
    let nameBytes ← slice data offset (← add64 offset 64)
    let nameLen := (nameBytes.findIdx? (· = 0)).getD 64
    let name := (fromUtf8 (← slice nameBytes 0 nameLen)).getD "unknown"
    let sizeBytes ← slice data (← add64 offset 64) (← add64 offset 72)
    let fileSize := fromLeBytes sizeBytes
    let offset ← add64 offset 72
    if (← add64 offset fileSize) ≤ data.length then
      let fileData ← slice data offset (← add64 offset fileSize)
      return some (⟨name, .regular, some fileData⟩, ← add64 offset fileSize)
    else return none
  else return none

/-- A record is a regular file, and the next one comes behind its header. -/
theorem ramdiskRecord_some {data : List UInt8} {offset next : Nat} {entry : VfsEntry}
    (h : ramdiskRecord data offset = .ok (some (entry, next))) :
    offset + 72 ≤ data.length ∧ offset + 72 ≤ next ∧ entry.fileType = .regular := by
  unfold ramdiskRecord at h
  obtain ⟨headerEnd, hhead, h⟩ := bind_eq_ok.mp h
  obtain ⟨-, rfl⟩ := add64_eq_ok.mp hhead
  split at h
  · next hin =>
    refine ⟨hin, ?_⟩
    obtain ⟨_, -, h⟩ := bind_eq_ok.mp h
    obtain ⟨_, -, h⟩ := bind_eq_ok.mp h
    obtain ⟨_, -, h⟩ := bind_eq_ok.mp h
    obtain ⟨_, -, h⟩ := bind_eq_ok.mp h
    obtain ⟨_, -, h⟩ := bind_eq_ok.mp h
    obtain ⟨_, -, h⟩ := bind_eq_ok.mp h
    obtain ⟨o, ho, h⟩ := bind_eq_ok.mp h
    obtain ⟨-, rfl⟩ := add64_eq_ok.mp ho
    obtain ⟨_, -, h⟩ := bind_eq_ok.mp h
    split at h
    · obtain ⟨_, -, h⟩ := bind_eq_ok.mp h
      obtain ⟨_, -, h⟩ := bind_eq_ok.mp h
      obtain ⟨n, hn, h⟩ := bind_eq_ok.mp h
      obtain ⟨-, rfl⟩ := add64_eq_ok.mp hn
      cases h
      exact ⟨Nat.le_add_right _ _, rfl⟩
    · cases h
  · cases h

/-- The loop goes on from a later offset. -/
theorem ramdiskRecord_next {data : List UInt8} {offset next : Nat} {entry : VfsEntry}
    (h : ramdiskRecord data offset = .ok (some (entry, next))) :
    offset + 72 ≤ data.length ∧ offset + 72 ≤ next := by
  obtain ⟨hin, hnext, -⟩ := ramdiskRecord_some h
  exact ⟨hin, hnext⟩

/-- The loop of `init_from_ramdisk`. -/
def ramdiskLoop (data : List UInt8) (offset : Nat) (entries : List VfsEntry) :
    Except Panic (List VfsEntry) :=
  match _h : ramdiskRecord data offset with
  | .error p => .error p
  | .ok none => .ok entries
  | .ok (some (entry, next)) => ramdiskLoop data next (entries ++ [entry])
termination_by data.length - offset
decreasing_by
  have hnext := ramdiskRecord_next _h
  omega

/-- `Vfs::init_from_ramdisk`; `data` are the bytes at `addr`. -/
def Vfs.initFromRamdisk (v : Vfs) (addr : Nat) (data : List UInt8) : Except Panic Vfs := do
  let v := v.initDefaults
  if addr ≠ 0 ∧ data.length > 0 then
    let entries ← ramdiskLoop data 0 v.entries
    return { v with entries := entries }
  else return v

/-! ## A record of an image

What the bytes at an offset say, for an offset that need not be checked. -/

/-- The name, up to the first zero; `"unknown"` if it is not UTF-8. -/
def recordName (data : List UInt8) (offset : Nat) : String :=
  let nameBytes := (data.drop offset).take 64
  (fromUtf8 (nameBytes.take ((nameBytes.findIdx? (· = 0)).getD 64))).getD "unknown"

/-- The size that the record claims. -/
def recordSize (data : List UInt8) (offset : Nat) : Nat :=
  fromLeBytes ((data.drop (offset + 64)).take 8)

/-- Where the record ends. -/
def recordEnd (data : List UInt8) (offset : Nat) : Nat := offset + 72 + recordSize data offset

def recordEntry (data : List UInt8) (offset : Nat) : VfsEntry :=
  ⟨recordName data offset, .regular, some ((data.drop (offset + 72)).take (recordSize data offset))⟩

/-- From the record at the first offset one comes to that at the second, over records that are
complete. -/
inductive RecordFrom (data : List UInt8) : Nat → Nat → Prop
  | here (offset : Nat) : RecordFrom data offset offset
  | next {offset last : Nat} (hfits : recordEnd data offset ≤ data.length)
      (hrest : RecordFrom data (recordEnd data offset) last) : RecordFrom data offset last

/-- The complete records from an offset on; the size of the one behind them, if there is its header, is
not so large that the record ends past the 64-bit addresses. -/
inductive Records (data : List UInt8) : Nat → List Nat → Prop
  | stop {offset : Nat} (hshort : data.length < recordEnd data offset)
      (hfit : offset + 72 ≤ data.length → recordEnd data offset < 2 ^ 64) : Records data offset []
  | record {offset : Nat} {offsets : List Nat} (hfits : recordEnd data offset ≤ data.length)
      (hrest : Records data (recordEnd data offset) offsets) :
      Records data offset (offset :: offsets)

/-- Of the records that one comes to, none claims a size with which it would end past the 64-bit
addresses. -/
def SizesFit (data : List UInt8) : Prop :=
  ∀ offset, RecordFrom data 0 offset → offset + 72 ≤ data.length → recordEnd data offset < 2 ^ 64

namespace RamdiskLemmas

/-- All that one turn of the loop can do. -/
theorem ramdiskRecord_eq {data : List UInt8} {offset : Nat} (hlen : data.length ≤ isizeMax)
    (ho : offset ≤ data.length) : ramdiskRecord data offset =
      if offset + 72 ≤ data.length then
        if recordEnd data offset < 2 ^ 64 then
          if recordEnd data offset ≤ data.length then
            .ok (some (recordEntry data offset, recordEnd data offset))
          else .ok none
        else .error ⟨"attempt to add with overflow"⟩
      else .ok none := by
  unfold isizeMax at hlen
  have h64 : add64 offset 64 = .ok (offset + 64) := add64_eq_ok.mpr ⟨by omega, rfl⟩
  have h72 : add64 offset 72 = .ok (offset + 72) := add64_eq_ok.mpr ⟨by omega, rfl⟩
  unfold ramdiskRecord
  simp only [h64, h72, bind, Except.bind]
  by_cases hin : offset + 72 ≤ data.length
  · have hname : slice data offset (offset + 64) = .ok ((data.drop offset).take 64) :=
      slice_eq_ok (by omega)
    have hsize : slice data (offset + 64) (offset + 72) = .ok ((data.drop (offset + 64)).take 8) := by
      have hslice : slice data (offset + 64) (offset + 64 + 8) = _ := slice_eq_ok hin
      exact hslice
    have hlen64 : ((data.drop offset).take 64).length = 64 := by
      rw [List.length_take, List.length_drop]
      omega
    have hpos : (((data.drop offset).take 64).findIdx? (· = 0)).getD 64 ≤ 64 := by
      rcases hp : ((data.drop offset).take 64).findIdx? (· = 0) with _ | p
      · rw [hp]
        exact Nat.le_refl 64
      · have hlt := (List.findIdx?_eq_some_iff_findIdx_eq.mp hp).1
        rw [hlen64] at hlt
        rw [hp]
        exact Nat.le_of_lt hlt
    have hprefix : slice ((data.drop offset).take 64) 0
        (0 + (((data.drop offset).take 64).findIdx? (· = 0)).getD 64) = _ := slice_eq_ok (by omega)
    rw [Nat.zero_add, List.drop_zero] at hprefix
    rw [if_pos hin, if_pos hin]
    simp only [hname, hprefix, hsize]
    by_cases hfit : recordEnd data offset < 2 ^ 64
    · have hend : add64 (offset + 72) (fromLeBytes ((data.drop (offset + 64)).take 8)) =
          .ok (recordEnd data offset) := add64_eq_ok.mpr ⟨hfit, rfl⟩
      rw [if_pos hfit]
      simp only [hend]
      by_cases hall : recordEnd data offset ≤ data.length
      · have hdata : slice data (offset + 72) (recordEnd data offset) =
            .ok ((data.drop (offset + 72)).take (recordSize data offset)) := slice_eq_ok hall
        rw [if_pos hall, if_pos hall]
        simp only [hdata]
        rfl
      · rw [if_neg hall, if_neg hall]
        rfl
    · have hend : add64 (offset + 72) (fromLeBytes ((data.drop (offset + 64)).take 8)) =
          .error ⟨"attempt to add with overflow"⟩ := if_neg hfit
      rw [if_neg hfit]
      simp only [hend]
  · rw [if_neg hin, if_neg hin]
    rfl

theorem ramdiskLoop_stop {data : List UInt8} {offset : Nat} {entries : List VfsEntry}
    (h : ramdiskRecord data offset = .ok none) : ramdiskLoop data offset entries = .ok entries := by
  unfold ramdiskLoop
  split
  · next heq =>
    rw [h] at heq
    cases heq
  · rfl
  · next heq =>
    rw [h] at heq
    cases heq

theorem ramdiskLoop_panic {data : List UInt8} {offset : Nat} {entries : List VfsEntry} {p : Panic}
    (h : ramdiskRecord data offset = .error p) : ramdiskLoop data offset entries = .error p := by
  unfold ramdiskLoop
  split
  · next heq =>
    rw [h] at heq
    cases heq
    rfl
  · next heq =>
    rw [h] at heq
    cases heq
  · next heq =>
    rw [h] at heq
    cases heq

theorem ramdiskLoop_record {data : List UInt8} {offset next : Nat} {entries : List VfsEntry}
    {entry : VfsEntry} (h : ramdiskRecord data offset = .ok (some (entry, next))) :
    ramdiskLoop data offset entries = ramdiskLoop data next (entries ++ [entry]) := by
  conv_lhs => unfold ramdiskLoop
  split
  · next heq =>
    rw [h] at heq
    cases heq
  · next heq =>
    rw [h] at heq
    cases heq
  · next heq =>
    rw [h] at heq
    cases heq
    rfl

/-- The loop adds the complete records, or it comes to one whose size is too large. -/
theorem ramdiskLoop_cases {data : List UInt8} (hlen : data.length ≤ isizeMax) :
    ∀ {offset : Nat} (entries : List VfsEntry), offset ≤ data.length →
      (∃ offsets, Records data offset offsets ∧
        ramdiskLoop data offset entries = .ok (entries ++ offsets.map (recordEntry data))) ∨
      (∃ p last, ramdiskLoop data offset entries = .error p ∧ RecordFrom data offset last ∧
        last + 72 ≤ data.length ∧ 2 ^ 64 ≤ recordEnd data last) := by
  intro offset
  induction hm : data.length - offset using Nat.strongRecOn generalizing offset with
  | _ m ih =>
    intro entries ho
    have hrecord := ramdiskRecord_eq hlen ho
    have hend : offset + 72 ≤ recordEnd data offset := Nat.le_add_right _ _
    by_cases hin : offset + 72 ≤ data.length
    · rw [if_pos hin] at hrecord
      by_cases hfit : recordEnd data offset < 2 ^ 64
      · rw [if_pos hfit] at hrecord
        by_cases hall : recordEnd data offset ≤ data.length
        · rw [if_pos hall] at hrecord
          rw [ramdiskLoop_record hrecord]
          have hrest := ih (data.length - recordEnd data offset) (by omega) rfl
            (entries ++ [recordEntry data offset]) hall
          rcases hrest with ⟨offsets, hoffsets, hloop⟩ | ⟨p, last, hloop, hfrom, hbad⟩
          · refine .inl ⟨offset :: offsets, .record hall hoffsets, ?_⟩
            rw [hloop, List.map_cons, List.append_assoc]
            rfl
          · exact .inr ⟨p, last, hloop, .next hall hfrom, hbad⟩
        · rw [if_neg hall] at hrecord
          refine .inl ⟨[], .stop (Nat.lt_of_not_le hall) fun _ => hfit, ?_⟩
          rw [ramdiskLoop_stop hrecord, List.map_nil, List.append_nil]
      · rw [if_neg hfit] at hrecord
        exact .inr ⟨_, offset, ramdiskLoop_panic hrecord, .here offset, hin, Nat.le_of_not_lt hfit⟩
    · rw [if_neg hin] at hrecord
      refine .inl ⟨[], .stop (by omega) fun h => absurd h hin, ?_⟩
      rw [ramdiskLoop_stop hrecord, List.map_nil, List.append_nil]

theorem Records.fit {data : List UInt8} {offset : Nat} {offsets : List Nat}
    (hlen : data.length ≤ isizeMax) (h : Records data offset offsets) :
    ∀ {last : Nat}, RecordFrom data offset last → last + 72 ≤ data.length →
      recordEnd data last < 2 ^ 64 := by
  induction h with
  | stop hshort hfit =>
    intro last hfrom hin
    cases hfrom with
    | here => exact hfit hin
    | next hfits => exact absurd hfits (Nat.not_le_of_lt hshort)
  | record hfits hrest ih =>
    intro last hfrom hin
    cases hfrom with
    | here =>
      unfold isizeMax at hlen
      omega
    | next _ hfrom => exact ih hfrom hin

/-- With an address the loop is always run; on no bytes it does nothing. -/
theorem initFromRamdisk_eq (v : Vfs) {addr : Nat} (haddr : addr ≠ 0) {data : List UInt8}
    (hlen : data.length ≤ isizeMax) : v.initFromRamdisk addr data =
      (ramdiskLoop data 0 (v.entries ++ defaultEntries)).map fun entries =>
        { v with entries := entries } := by
  unfold Vfs.initFromRamdisk Vfs.initDefaults
  dsimp only
  by_cases hpos : data.length > 0
  · rw [if_pos ⟨haddr, hpos⟩]
    rcases ramdiskLoop data 0 (v.entries ++ defaultEntries) with p | entries <;> rfl
  · rw [if_neg fun h => hpos h.2, ramdiskLoop_stop]
    · rfl
    · rw [ramdiskRecord_eq hlen (Nat.zero_le _), if_neg (by omega)]

theorem recordEntry_infix (data : List UInt8) (offset : Nat) :
    ∃ contents, (recordEntry data offset).data = some contents ∧ contents <:+: data :=
  ⟨_, rfl, (List.take_prefix _ _).isInfix.trans (List.drop_suffix _ _).isInfix⟩

end RamdiskLemmas

open RamdiskLemmas

/-! ## Every image -/

/-- `init_from_ramdisk` ends without a panic: behind the defaults it has added entries whose contents are
parts of the image. -/
def RamdiskDecoded (v : Vfs) (addr : Nat) (data : List UInt8) : Prop :=
  ∃ v', v.initFromRamdisk addr data = .ok v' ∧
    ∃ added, v'.entries = v.entries ++ defaultEntries ++ added ∧
      ∀ e ∈ added, ∃ contents, e.data = some contents ∧ contents <:+: data

/-- An image is decoded without a panic exactly when none of the sizes in it is too large. -/
theorem ramdisk_total_iff (v : Vfs) {addr : Nat} (haddr : addr ≠ 0) {data : List UInt8}
    (hlen : data.length < 2 ^ 47) : RamdiskDecoded v addr data ↔ SizesFit data := by
  have hlen' : data.length ≤ isizeMax := by
    unfold isizeMax
    omega
  unfold RamdiskDecoded
  rw [initFromRamdisk_eq v haddr hlen']
  rcases ramdiskLoop_cases hlen' (v.entries ++ defaultEntries) (Nat.zero_le data.length) with
    ⟨offsets, hoffsets, hloop⟩ | ⟨p, last, hloop, hfrom, hin, hbad⟩
  · rw [hloop]
    constructor
    · exact fun _ offset hfrom hin => Records.fit hlen' hoffsets hfrom hin
    · intro _
      refine ⟨_, rfl, offsets.map (recordEntry data), rfl, fun e he => ?_⟩
      obtain ⟨offset, -, rfl⟩ := List.mem_map.mp he
      exact recordEntry_infix data offset
  · rw [hloop]
    constructor
    · rintro ⟨v', hv', -⟩
      cases hv'
    · intro hfit
      exact absurd (hfit last hfrom hin) (Nat.not_lt_of_le hbad)

/-- An image of one record that claims `size` bytes and has none. -/
def claiming (size : Nat) : List UInt8 := List.replicate 64 0 ++ toLeBytes 8 size

/-- A size that is only larger than the image is noticed, and the record is dropped. -/
theorem ramdisk_total_sample : RamdiskDecoded .new 0x100000 (claiming 1000) :=
  (ramdisk_total_iff .new (by decide) (by decide)).mpr (by
    intro offset hfrom _
    cases hfrom with
    | here => decide
    | next hfits => exact absurd hfits (by decide))

/-- The largest size makes the sum `72 + file_size` overflow. -/
theorem ramdisk_size_overflow_panics : ¬ RamdiskDecoded .new 0x100000 (claiming (2 ^ 64 - 1)) := by
  have hrecord : ramdiskRecord (claiming (2 ^ 64 - 1)) 0 = _ :=
    ramdiskRecord_eq (by decide) (by decide)
  rw [if_pos (by decide), if_neg (by decide)] at hrecord
  rintro ⟨v', hv', -⟩
  rw [initFromRamdisk_eq _ (by decide) (by decide), ramdiskLoop_panic hrecord] at hv'
  cases hv'

/-! ## The images of `xtask` -/

/-- A file for the ramdisk. -/
structure RamdiskFile where
  name : String
  data : List UInt8
deriving DecidableEq, Repr

/-- `add_file`. -/
def addFile (ramdisk : List UInt8) (file : RamdiskFile) : List UInt8 :=
  let nameBytes := asBytes file.name
  let nameLen := min nameBytes.length 63
  let header := overwrite (List.replicate 64 0) (nameBytes.take nameLen)
  ramdisk ++ header ++ toLeBytes 8 file.data.length ++ file.data

/-- The image of some files. -/
def ramdiskImage (files : List RamdiskFile) : List UInt8 := files.foldl addFile []

/-- The name fits into a record: it has at most 63 bytes, none of them zero. -/
def RamdiskFile.Storable (file : RamdiskFile) : Prop :=
  (asBytes file.name).length ≤ 63 ∧ 0 ∉ asBytes file.name

/-- The entry that stands for the file. -/
def RamdiskFile.entry (file : RamdiskFile) : VfsEntry := ⟨file.name, .regular, some file.data⟩

namespace RamdiskLemmas

/-- The header of a record with a storable name. -/
def nameField (name : String) : List UInt8 :=
  asBytes name ++ List.replicate (64 - (asBytes name).length) 0

theorem length_nameField {file : RamdiskFile} (h : file.Storable) : (nameField file.name).length = 64 := by
  have hlen := h.1
  unfold nameField
  rw [List.length_append, List.length_replicate]
  omega

theorem addFile_eq {file : RamdiskFile} (h : file.Storable) (ramdisk : List UInt8) :
    addFile ramdisk file =
      ramdisk ++ nameField file.name ++ toLeBytes 8 file.data.length ++ file.data := by
  unfold addFile overwrite nameField
  dsimp only
  rw [Nat.min_eq_left h.1, List.take_length, List.drop_replicate]

theorem length_addFile {file : RamdiskFile} (h : file.Storable) (ramdisk : List UInt8) :
    (addFile ramdisk file).length = ramdisk.length + 72 + file.data.length := by
  rw [addFile_eq h, List.length_append, List.length_append, List.length_append, length_nameField h,
    length_toLeBytes]

theorem ramdiskImage_snoc (files : List RamdiskFile) (file : RamdiskFile) :
    ramdiskImage (files ++ [file]) = addFile (ramdiskImage files) file := List.foldl_concat ..

/-- Later files are behind the earlier ones. -/
theorem ramdiskImage_append : ∀ more files : List RamdiskFile,
    ∃ post, ramdiskImage (files ++ more) = ramdiskImage files ++ post
  | [], files => ⟨[], by rw [List.append_nil, List.append_nil]⟩
  | file :: more, files => by
    obtain ⟨post, hpost⟩ := ramdiskImage_append more (files ++ [file])
    rw [List.append_assoc, ramdiskImage_snoc] at hpost
    unfold addFile at hpost
    dsimp only at hpost
    rw [List.append_assoc, List.append_assoc, List.append_assoc] at hpost
    exact ⟨_, hpost⟩

/-- A part of an image that is cut off behind that part. -/
theorem take_drop_take {pre part post : List UInt8} {k : Nat} (hk : pre.length + part.length ≤ k) :
    (((pre ++ part ++ post).take k).drop pre.length).take part.length = part := by
  rw [List.drop_take, List.append_assoc, List.drop_left, List.take_take,
    Nat.min_eq_left (by omega), List.take_left]

theorem findIdx_nameField {file : RamdiskFile} (h : file.Storable) :
    (nameField file.name).findIdx? (· = 0) = some (asBytes file.name).length := by
  obtain ⟨hlen, hzero⟩ := h
  have hnone : (asBytes file.name).findIdx? (· = 0) = none := by
    rw [List.findIdx?_eq_none_iff]
    intro b hb
    rw [decide_eq_false_iff_not]
    rintro rfl
    exact hzero hb
  unfold nameField
  rw [List.findIdx?_append, hnone]
  obtain ⟨n, hn⟩ : ∃ n, 64 - (asBytes file.name).length = n + 1 :=
    ⟨63 - (asBytes file.name).length, by omega⟩
  rw [hn, List.replicate_succ, List.findIdx?_cons]
  simp

/-- The fields of a record whose header is not cut off. -/
theorem record_fields {file : RamdiskFile} (h : file.Storable) (pre post : List UInt8) {k : Nat}
    (hsize : file.data.length < 2 ^ 64) (hk : pre.length + 72 ≤ k) :
    recordName ((addFile pre file ++ post).take k) pre.length = file.name ∧
      recordSize ((addFile pre file ++ post).take k) pre.length = file.data.length := by
  have hfield := length_nameField h
  have hname : (((addFile pre file ++ post).take k).drop pre.length).take 64 = nameField file.name := by
    have hpart : (((pre ++ nameField file.name ++ (toLeBytes 8 file.data.length ++ file.data ++ post)).take
        k).drop pre.length).take (nameField file.name).length = _ := take_drop_take (by omega)
    rw [hfield] at hpart
    refine Eq.trans ?_ hpart
    rw [addFile_eq h]
    simp only [List.append_assoc]
  constructor
  · unfold recordName
    dsimp only
    rw [hname, findIdx_nameField h, Option.getD_some]
    unfold nameField
    rw [List.take_left, fromUtf8_asBytes]
    rfl
  · have hpart : ((((pre ++ nameField file.name) ++ toLeBytes 8 file.data.length ++
        (file.data ++ post)).take k).drop (pre ++ nameField file.name).length).take
          (toLeBytes 8 file.data.length).length = _ := take_drop_take (by
      rw [List.length_append, hfield, length_toLeBytes]
      omega)
    rw [List.length_append, hfield, length_toLeBytes] at hpart
    unfold recordSize
    rw [addFile_eq h]
    simp only [List.append_assoc] at hpart ⊢
    rw [hpart]
    exact fromLeBytes_toLeBytes (Nat.lt_of_lt_of_le hsize (by decide))

/-- The entry of a record that is not cut off. -/
theorem record_entry {file : RamdiskFile} (h : file.Storable) (pre post : List UInt8) {k : Nat}
    (hsize : file.data.length < 2 ^ 64) (hk : (addFile pre file).length ≤ k) :
    recordEntry ((addFile pre file ++ post).take k) pre.length = file.entry := by
  rw [length_addFile h] at hk
  obtain ⟨hname, hlength⟩ := record_fields h pre post (k := k) hsize (by omega)
  have hpart : ((((pre ++ nameField file.name ++ toLeBytes 8 file.data.length) ++ file.data ++
      post).take k).drop (pre ++ nameField file.name ++ toLeBytes 8 file.data.length).length).take
        file.data.length = _ := take_drop_take (by
    rw [List.length_append, List.length_append, length_nameField h, length_toLeBytes]
    omega)
  rw [List.length_append, List.length_append, length_nameField h, length_toLeBytes] at hpart
  have hcontents : (((addFile pre file ++ post).take k).drop (pre.length + 72)).take
      file.data.length = file.data := by
    rw [addFile_eq h]
    exact hpart
  unfold recordEntry RamdiskFile.entry
  rw [hname, hlength, hcontents]

/-- The loop on an image that is cut off behind `k` bytes, from the end of the files `done` on. By
induction on the files that are left. -/
theorem ramdiskLoop_image {k : Nat} : ∀ (left done : List RamdiskFile) (entries : List VfsEntry),
    (∀ f ∈ left, f.Storable) → (ramdiskImage (done ++ left)).length ≤ isizeMax →
    k ≤ (ramdiskImage (done ++ left)).length → (ramdiskImage done).length ≤ k →
    ∃ n, n ≤ left.length ∧ (ramdiskImage (done ++ left.take n)).length ≤ k ∧
      (∀ m, m ≤ left.length → (ramdiskImage (done ++ left.take m)).length ≤ k → m ≤ n) ∧
      ramdiskLoop ((ramdiskImage (done ++ left)).take k) (ramdiskImage done).length entries =
        .ok (entries ++ (left.take n).map RamdiskFile.entry)
  | [], done, entries, _, hlen, hk, hdone => by
    rw [List.append_nil] at hlen hk ⊢
    refine ⟨0, Nat.le_refl 0, ?_, fun m hm _ => hm, ?_⟩
    · rw [List.take_nil, List.append_nil]
      exact hdone
    · have hlength : ((ramdiskImage done).take k).length = k := List.length_take_of_le hk
      rw [ramdiskLoop_stop, List.take_nil, List.map_nil, List.append_nil]
      rw [ramdiskRecord_eq (by omega) (by omega), if_neg (by omega)]
  | file :: left, done, entries, hfiles, hlen, hk, hdone => by
    have hfile : file.Storable := hfiles file List.mem_cons_self
    have hnext : done ++ file :: left = (done ++ [file]) ++ left := by
      rw [List.append_assoc]
      rfl
    obtain ⟨post, hpost⟩ := ramdiskImage_append left (done ++ [file])
    rw [ramdiskImage_snoc] at hpost
    have himage : ramdiskImage (done ++ file :: left) = addFile (ramdiskImage done) file ++ post := by
      rw [hnext, hpost]
    have hadd := length_addFile hfile (ramdiskImage done)
    have htotal : (ramdiskImage (done ++ file :: left)).length =
        (addFile (ramdiskImage done) file).length + post.length := by
      rw [himage, List.length_append]
    have hsize : file.data.length < 2 ^ 64 := by
      unfold isizeMax at hlen
      omega
    have hlength : ((ramdiskImage (done ++ file :: left)).take k).length = k :=
      List.length_take_of_le hk
    have htake : ∀ n, done ++ (file :: left).take (n + 1) = (done ++ [file]) ++ left.take n := by
      intro n
      rw [List.take_succ_cons, List.append_assoc]
      rfl
    have hrecord : ramdiskRecord ((ramdiskImage (done ++ file :: left)).take k)
        (ramdiskImage done).length = _ := ramdiskRecord_eq (by omega) (by omega)
    rw [hlength, himage] at hrecord
    by_cases hfits : (addFile (ramdiskImage done) file).length ≤ k
    · -- the whole record is there
      obtain ⟨-, hrsize⟩ := record_fields hfile (ramdiskImage done) post (k := k) hsize (by omega)
      have hentry : recordEntry ((addFile (ramdiskImage done) file ++ post).take k)
          (ramdiskImage done).length = file.entry := record_entry hfile _ post hsize hfits
      have hend : recordEnd ((addFile (ramdiskImage done) file ++ post).take k)
          (ramdiskImage done).length = (ramdiskImage (done ++ [file])).length := by
        unfold recordEnd
        rw [hrsize, ramdiskImage_snoc, hadd]
      have hfits' : (ramdiskImage (done ++ [file])).length ≤ k := by
        rw [ramdiskImage_snoc]
        exact hfits
      rw [if_pos (by omega), hend, if_pos (by unfold isizeMax at hlen; omega), if_pos hfits', hentry]
        at hrecord
      rw [hnext] at hlen hk
      obtain ⟨n, hn, hnfits, hmax, hloop⟩ := ramdiskLoop_image left (done ++ [file])
        (entries ++ [file.entry]) (fun f hf => hfiles f (List.mem_cons_of_mem _ hf)) hlen hk hfits'
      refine ⟨n + 1, Nat.succ_le_succ hn, ?_, ?_, ?_⟩
      · rw [htake]
        exact hnfits
      · intro m hm hmfits
        cases m with
        | zero => exact Nat.zero_le _
        | succ m =>
          rw [htake] at hmfits
          exact Nat.succ_le_succ (hmax m (Nat.le_of_succ_le_succ hm) hmfits)
      · rw [himage, ramdiskLoop_record hrecord, ← himage, hnext, hloop, List.take_succ_cons,
          List.map_cons, List.append_assoc]
        rfl
    · -- it is cut off, in its header or behind it
      refine ⟨0, Nat.zero_le _, ?_, ?_, ?_⟩
      · rw [List.take_zero, List.append_nil]
        exact hdone
      · intro m hm hmfits
        cases m with
        | zero => exact Nat.le_refl 0
        | succ m =>
          obtain ⟨post', hpost'⟩ := ramdiskImage_append (left.take m) (done ++ [file])
          rw [htake, hpost', List.length_append, ramdiskImage_snoc] at hmfits
          omega
      · rw [List.take_zero, List.map_nil, List.append_nil, himage]
        refine ramdiskLoop_stop (hrecord.trans ?_)
        by_cases hhead : (ramdiskImage done).length + 72 ≤ k
        · obtain ⟨-, hrsize⟩ := record_fields hfile (ramdiskImage done) post hsize hhead
          unfold recordEnd
          rw [hrsize, if_pos hhead, if_pos (by unfold isizeMax at hlen; omega), if_neg (by omega)]
        · rw [if_neg hhead]

/-- A whole image. -/
theorem initFromRamdisk_image (v : Vfs) {addr : Nat} (haddr : addr ≠ 0) {files : List RamdiskFile}
    (hfiles : ∀ f ∈ files, f.Storable) (hlen : (ramdiskImage files).length ≤ isizeMax) :
    v.initFromRamdisk addr (ramdiskImage files) = .ok { v with
      entries := v.entries ++ defaultEntries ++ files.map RamdiskFile.entry } := by
  obtain ⟨n, hn, -, hmax, hloop⟩ := ramdiskLoop_image files [] (v.entries ++ defaultEntries) hfiles
    hlen (Nat.le_refl _) (Nat.zero_le _)
  have hall : n = files.length := by
    refine Nat.le_antisymm hn (hmax files.length (Nat.le_refl _) ?_)
    simp only [List.take_length, Nat.le_refl]
  rw [List.take_length, hall, List.take_length] at hloop
  have hloop' : ramdiskLoop (ramdiskImage files) 0 (v.entries ++ defaultEntries) = _ := hloop
  rw [initFromRamdisk_eq v haddr hlen, hloop']
  rfl

theorem Records.unique {data : List UInt8} {offset : Nat} {offsets : List Nat}
    (h : Records data offset offsets) : ∀ {others : List Nat}, Records data offset others →
      others = offsets := by
  induction h with
  | stop hshort =>
    intro others h'
    cases h' with
    | stop => rfl
    | record hfits => exact absurd hfits (Nat.not_le_of_lt hshort)
  | record hfits hrest ih =>
    intro others h'
    cases h' with
    | stop hshort => exact absurd hfits (Nat.not_le_of_lt hshort)
    | record _ hrest' => rw [ih hrest']

/-- An image that is decoded, by its records. -/
theorem initFromRamdisk_records {v v' : Vfs} {addr : Nat} (haddr : addr ≠ 0) {data : List UInt8}
    (hlen : data.length ≤ isizeMax) (h : v.initFromRamdisk addr data = .ok v') :
    ∃ offsets, Records data 0 offsets ∧ v' = { v with
      entries := v.entries ++ defaultEntries ++ offsets.map (recordEntry data) } := by
  rw [initFromRamdisk_eq v haddr hlen] at h
  rcases ramdiskLoop_cases hlen (v.entries ++ defaultEntries) (Nat.zero_le data.length) with
    ⟨offsets, hoffsets, hloop⟩ | ⟨p, -, hloop, -⟩
  · rw [hloop] at h
    cases h
    exact ⟨offsets, hoffsets, rfl⟩
  · rw [hloop] at h
    cases h

theorem openFiles_initFromRamdisk {v v' : Vfs} {addr : Nat} {data : List UInt8}
    (h : v.initFromRamdisk addr data = .ok v') : v'.openFiles = v.openFiles := by
  unfold Vfs.initFromRamdisk at h
  dsimp only at h
  split at h
  · obtain ⟨entries, -, h⟩ := bind_eq_ok.mp h
    cases h
    rfl
  · cases h
    rfl

end RamdiskLemmas

/-- What the kernel makes of the first `k` bytes of an image: behind the default entries it adds those of
the longest list of first files that fits, and with the whole image those of all files. -/
theorem ramdisk_round_trip (v : Vfs) {addr : Nat} (haddr : addr ≠ 0) {files : List RamdiskFile}
    (hfiles : ∀ f ∈ files, f.Storable) (hlen : (ramdiskImage files).length ≤ isizeMax) {k : Nat}
    (hk : k ≤ (ramdiskImage files).length) :
    ∃ n, n ≤ files.length ∧ (ramdiskImage (files.take n)).length ≤ k ∧
      (∀ m, m ≤ files.length → (ramdiskImage (files.take m)).length ≤ k → m ≤ n) ∧
      (k = (ramdiskImage files).length → n = files.length) ∧
      v.initFromRamdisk addr ((ramdiskImage files).take k) = .ok { v with
        entries := v.entries ++ defaultEntries ++ (files.take n).map RamdiskFile.entry } := by
  have hlength : ((ramdiskImage files).take k).length = k := List.length_take_of_le hk
  obtain ⟨n, hn, hnfits, hmax, hloop⟩ := ramdiskLoop_image files [] (v.entries ++ defaultEntries) hfiles
    hlen hk (Nat.zero_le k)
  refine ⟨n, hn, hnfits, hmax, fun hall => ?_, ?_⟩
  · refine Nat.le_antisymm hn (hmax files.length (Nat.le_refl _) ?_)
    rw [List.nil_append, List.take_length]
    exact Nat.le_of_eq hall.symm
  · rw [initFromRamdisk_eq v haddr (by omega)]
    have hloop' : ramdiskLoop ((ramdiskImage files).take k) 0 (v.entries ++ defaultEntries) = _ := hloop
    rw [hloop']
    rfl

/-- Two files, for an image of 147 bytes. -/
def sampleFiles : List RamdiskFile := [⟨"init", [1, 2]⟩, ⟨"font.psf", [3]⟩]

/-- The last byte is cut off. -/
theorem ramdisk_round_trip_sample :
    ∃ n, n ≤ sampleFiles.length ∧ (ramdiskImage (sampleFiles.take n)).length ≤ 146 ∧
      (∀ m, m ≤ sampleFiles.length → (ramdiskImage (sampleFiles.take m)).length ≤ 146 → m ≤ n) ∧
      (146 = (ramdiskImage sampleFiles).length → n = sampleFiles.length) ∧
      Vfs.new.initFromRamdisk 0x100000 ((ramdiskImage sampleFiles).take 146) = .ok { Vfs.new with
        entries := Vfs.new.entries ++ defaultEntries ++ (sampleFiles.take n).map RamdiskFile.entry } :=
  ramdisk_round_trip .new (by decide) (by
    intro f hf
    simp only [sampleFiles, List.mem_cons, List.not_mem_nil, or_false] at hf
    rcases hf with rfl | rfl <;>
    · unfold RamdiskFile.Storable
      decide) (by decide +kernel) (by decide +kernel)

end Turnix
