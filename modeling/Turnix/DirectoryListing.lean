import Turnix.UserPointers

/-!
# Listing a directory

`handle_ls` fills the buffer of its caller with the names of the entries, each followed by a newline, as
long as they fit. `lsFill` is its loop with the operations on the buffer, which panic out of bounds; it does not
panic, and it leaves what `handleLs` stores (`lsFill_eq`). That is the text of the longest part of the list, from
its start on, that fits (`lsLoop_eq`). Both give `directory_listing_iff`: it is so for every buffer of which a slice
can be made. For a longer one the kernel panics.
-/

namespace Turnix

open Lib

/-! ## The loop on the buffer -/

/-- `dst[start..stop].copy_from_slice(src)`. -/
def copyRange (dst : List UInt8) (start stop : Nat) (src : List UInt8) : Except Panic (List UInt8) := do
  let part ← slice dst start stop
  let srcLen := src.length
  let dstLen := part.length
  ensure (dstLen = srcLen)
    s!"copy_from_slice: source slice length (`{srcLen}`) does not match destination slice length (`{dstLen}`)"
  return dst.take start ++ src ++ dst.drop stop

/-- `dst[index] = byte`. -/
def setByte (dst : List UInt8) (index : Nat) (byte : UInt8) : Except Panic (List UInt8) := do
  let _ ← byteAt dst index
  return dst.set index byte

/-- The loop of `handle_ls`, over the rest of the names: the buffer and `offset` at its end. -/
def lsFill (bufLen : Nat) : List String → Nat → List UInt8 → Except Panic (List UInt8 × Nat)
  | [], offset, buf => .ok (buf, offset)
  | name :: files, offset, buf => do
    let nameBytes := asBytes name
    let stop ← add64 offset nameBytes.length
    let next ← add64 stop 1
    if next > bufLen then .ok (buf, offset)
    else
      let buf ← copyRange buf offset stop nameBytes
      let buf ← setByte buf stop 0x0A
      lsFill bufLen files next buf

/-- The names, each one with a newline. -/
def listing (names : List String) : List UInt8 := names.flatMap fun name => asBytes name ++ [0x0A]

/-- `handle_ls` on a buffer of `args.arg1` bytes writes the text of as many names as fit and returns its length. It
writes nothing else, and its loop stays inside the buffer; a name has at most `isize::MAX` bytes. -/
def ListsDirectory (args : SyscallArgs) (s : SysState) : Prop :=
  ∃ k ≤ s.vfs.listDir.length, ∃ s',
    (listing (s.vfs.listDir.take k)).length ≤ args.arg1 ∧
    (∀ j ≤ s.vfs.listDir.length, (listing (s.vfs.listDir.take j)).length ≤ args.arg1 → j ≤ k) ∧
    handleLs args s = .ret (.success (listing (s.vfs.listDir.take k)).length) s' ∧
    bytesAt s'.mem args.arg0 (listing (s.vfs.listDir.take k)).length = listing (s.vfs.listDir.take k) ∧
    (∀ a, a < args.arg0 ∨ args.arg0 + (listing (s.vfs.listDir.take k)).length ≤ a → s'.mem a = s.mem a) ∧
    ((∀ name ∈ s.vfs.listDir, (asBytes name).length ≤ isizeMax) →
      lsFill args.arg1 s.vfs.listDir 0 (bytesAt s.mem args.arg0 args.arg1) =
        .ok (bytesAt s'.mem args.arg0 args.arg1, (listing (s.vfs.listDir.take k)).length))

open Libturnix.LibturnixLemmas

namespace ListingLemmas

variable {buf out src : List UInt8} {byte : UInt8} {mem : Nat → UInt8} {ptr n : Nat}

/-! ## The buffer -/

theorem length_overwrite (h : out.length ≤ buf.length) : (overwrite buf out).length = buf.length := by
  unfold overwrite
  rw [List.length_append, List.length_drop]
  omega

theorem copyRange_overwrite (h : out.length + src.length ≤ buf.length) :
    copyRange (overwrite buf out) out.length (out.length + src.length) src =
      .ok (overwrite buf (out ++ src)) := by
  have hlen : (overwrite buf out).length = buf.length := length_overwrite (by omega)
  have hpart : (((overwrite buf out).drop out.length).take src.length).length = src.length := by
    rw [List.length_take, List.length_drop]
    omega
  have hrest : (overwrite buf out).drop (out.length + src.length) = buf.drop (out ++ src).length := by
    unfold overwrite
    rw [← List.drop_drop, List.drop_left, List.drop_drop, List.length_append]
  unfold copyRange
  rw [slice_eq_ok (by omega)]
  show ((ensure _ _ : Except Panic Unit) >>= fun _ => _) = _
  unfold ensure
  rw [if_pos hpart, hrest]
  show Except.ok ((overwrite buf out).take out.length ++ src ++ buf.drop (out ++ src).length) = _
  unfold overwrite
  rw [List.take_left]

theorem setByte_eq_ok {index : Nat} (byte : UInt8) (h : index < buf.length) :
    setByte buf index byte = .ok (buf.set index byte) := by
  unfold setByte
  rw [byteAt_eq_ok h]
  rfl

theorem setByte_overwrite (h : out.length < buf.length) :
    setByte (overwrite buf out) out.length byte = .ok (overwrite buf (out ++ [byte])) := by
  have hlen : (overwrite buf out).length = buf.length := length_overwrite (by omega)
  rw [setByte_eq_ok byte (by omega)]
  unfold overwrite
  rw [List.drop_eq_getElem_cons h, List.set_append_right _ _ (Nat.le_refl _), Nat.sub_self, List.set_cons_zero,
    List.append_assoc, List.length_append]
  rfl

/-- The loop does not panic, and it leaves the bytes that `handleLs` stores. -/
theorem lsFill_eq (hbuf : buf.length ≤ isizeMax) :
    ∀ (names : List String) {out : List UInt8}, (∀ name ∈ names, (asBytes name).length ≤ isizeMax) →
      out.length ≤ buf.length →
      lsFill buf.length names out.length (overwrite buf out) =
        .ok (overwrite buf (lsLoop buf.length names out), (lsLoop buf.length names out).length)
  | [], out, _, _ => rfl
  | name :: names, out, hnames, hout => by
    have hname := hnames name List.mem_cons_self
    have hrest : ∀ name ∈ names, (asBytes name).length ≤ isizeMax :=
      fun name hin => hnames name (List.mem_cons_of_mem _ hin)
    unfold isizeMax at hbuf hname
    have hstop : add64 out.length (asBytes name).length = .ok (out.length + (asBytes name).length) :=
      add64_eq_ok.mpr ⟨by omega, rfl⟩
    have hnext : add64 (out.length + (asBytes name).length) 1 = .ok (out.length + (asBytes name).length + 1) :=
      add64_eq_ok.mpr ⟨by omega, rfl⟩
    unfold lsFill lsLoop
    dsimp only
    rw [hstop]
    show (add64 _ 1 >>= fun next => _) = _
    rw [hnext]
    show (if out.length + (asBytes name).length + 1 > buf.length then _ else _) = _
    by_cases hfits : out.length + (asBytes name).length + 1 > buf.length
    · rw [if_pos hfits, if_pos hfits]
    · have hlen : (out ++ asBytes name).length = out.length + (asBytes name).length := List.length_append
      rw [if_neg hfits, if_neg hfits, copyRange_overwrite (by omega)]
      show (setByte _ _ _ >>= fun buf' => _) = _
      rw [← hlen, setByte_overwrite (by omega)]
      have hlen' : (out ++ asBytes name ++ [0x0A]).length = (out ++ asBytes name).length + 1 := List.length_append
      rw [← hlen']
      exact lsFill_eq hbuf names hrest (by omega)

/-- What the caller finds in its buffer. -/
theorem bytesAt_storeBytes (h : out.length ≤ n) :
    bytesAt (storeBytes mem ptr out) ptr n = overwrite (bytesAt mem ptr n) out := by
  refine List.ext_getElem? fun i => ?_
  unfold overwrite bytesAt storeBytes
  rcases Nat.lt_or_ge i n with hi | hi
  · rw [List.getElem?_map, List.getElem?_range hi, Option.map_some, if_pos (Nat.le_add_right _ _),
      Nat.add_sub_cancel_left, List.getD_eq_getElem?_getD]
    rcases Nat.lt_or_ge i out.length with ho | ho
    · rw [List.getElem?_append_left ho, List.getElem?_eq_getElem ho, Option.getD_some]
    · rw [List.getElem?_append_right ho, List.getElem?_eq_none ho, Option.getD_none, List.getElem?_drop,
        Nat.add_sub_cancel' ho, List.getElem?_map, List.getElem?_range hi, Option.map_some]
  · rw [List.getElem?_eq_none, List.getElem?_eq_none]
    · rw [List.length_append, List.length_drop, List.length_map, List.length_range]
      omega
    · rw [List.length_map, List.length_range]
      exact hi

theorem storeBytes_outside {a : Nat} (h : a < ptr ∨ ptr + out.length ≤ a) : storeBytes mem ptr out a = mem a := by
  unfold storeBytes
  by_cases hle : ptr ≤ a
  · rw [if_pos hle, List.getD_eq_getElem?_getD, List.getElem?_eq_none (by omega), Option.getD_none]
  · rw [if_neg hle]

/-! ## The text -/

theorem length_listing_cons (name : String) (names : List String) :
    (listing (name :: names)).length = (asBytes name).length + 1 + (listing names).length := by
  unfold listing
  rw [List.flatMap_cons, List.length_append, List.length_append]
  rfl

/-- The loop takes names as long as they fit. -/
theorem lsLoop_eq {bufLen : Nat} : ∀ (names : List String) (out : List UInt8), ∃ k ≤ names.length,
    lsLoop bufLen names out = out ++ listing (names.take k) ∧
      ∀ j ≤ names.length, out.length + (listing (names.take j)).length ≤ bufLen → j ≤ k
  | [], out => ⟨0, Nat.le_refl 0, (List.append_nil out).symm, fun j hj _ => hj⟩
  | name :: names, out => by
    unfold lsLoop
    dsimp only
    by_cases hfits : out.length + (asBytes name).length + 1 > bufLen
    · rw [if_pos hfits]
      refine ⟨0, Nat.zero_le _, (List.append_nil out).symm, fun j _ hlen => ?_⟩
      cases j with
      | zero => exact Nat.le_refl 0
      | succ j =>
        rw [List.take_succ_cons, length_listing_cons] at hlen
        omega
    · rw [if_neg hfits]
      obtain ⟨k, hk, htext, hmax⟩ := lsLoop_eq names (out ++ asBytes name ++ [0x0A])
      refine ⟨k + 1, Nat.succ_le_succ hk, ?_, fun j hj hlen => ?_⟩
      · rw [htext, List.take_succ_cons]
        unfold listing
        rw [List.flatMap_cons, List.append_assoc, List.append_assoc, List.append_assoc]
      · cases j with
        | zero => exact Nat.zero_le _
        | succ j =>
          rw [List.take_succ_cons, length_listing_cons] at hlen
          refine Nat.succ_le_succ (hmax j (Nat.le_of_succ_le_succ hj) ?_)
          rw [List.length_append, List.length_append, List.length_singleton]
          omega

end ListingLemmas

open ListingLemmas

/-- `handle_ls` lists the directory in a buffer that is not empty exactly if it is not longer than a slice can be. -/
theorem directory_listing_iff (args : SyscallArgs) (s : SysState) (hptr : args.arg0 ≠ 0) (hlen : 1 ≤ args.arg1) :
    ListsDirectory args s ↔ args.arg1 ≤ isizeMax := by
  have hcall : handleLs args s = withSlice "from_raw_parts_mut" args.arg1
      (.ret (.success (lsLoop args.arg1 s.vfs.listDir []).length)
        { s.touch [.range args.arg0 (lsLoop args.arg1 s.vfs.listDir []).length] with
          mem := storeBytes s.mem args.arg0 (lsLoop args.arg1 s.vfs.listDir []) }) := by
    unfold handleLs
    exact if_neg (by omega)
  constructor
  · rintro ⟨k, -, s', -, -, hret, -⟩
    by_contra hlong
    rw [hcall, withSlice, if_neg hlong] at hret
    cases hret
  intro hbuf
  rw [withSlice_of_le hbuf] at hcall
  obtain ⟨k, hk, htext, hmax⟩ := @lsLoop_eq args.arg1 s.vfs.listDir []
  have hfits : (lsLoop args.arg1 s.vfs.listDir []).length ≤ args.arg1 := length_lsLoop _ (Nat.zero_le _)
  rw [List.nil_append] at htext
  rw [htext] at hcall hfits
  refine ⟨k, hk, _, hfits, fun j hj hlt => hmax j hj ?_, hcall, ?_, fun a ha => storeBytes_outside ha,
    fun hnames => ?_⟩
  · rw [List.length_nil, Nat.zero_add]
    exact hlt
  · show bytesAt (storeBytes s.mem _ _) _ _ = _
    rw [bytesAt_storeBytes (Nat.le_refl _)]
    unfold overwrite
    rw [List.drop_eq_nil_of_le (by rw [length_bytesAt]), List.append_nil]
  · have hbytes := length_bytesAt s.mem args.arg0 args.arg1
    have hloop := @lsFill_eq (bytesAt s.mem args.arg0 args.arg1) (by omega) s.vfs.listDir [] hnames
      (Nat.zero_le _)
    rw [hbytes, htext] at hloop
    show _ = Except.ok (bytesAt (storeBytes s.mem _ _) _ _, _)
    rw [bytesAt_storeBytes hfits]
    exact hloop

/-- The name of the one file, with its newline, fills a buffer of six bytes. -/
theorem directory_listing_exact_fit : ListsDirectory ⟨0x400000, 6, 0, 0⟩ fileState ∧
    ∃ s', handleLs ⟨0x400000, 6, 0, 0⟩ fileState = .ret (.success 6) s' ∧
      bytesAt s'.mem 0x400000 6 = listing ["notes"] := by
  have hlists : ListsDirectory ⟨0x400000, 6, 0, 0⟩ fileState :=
    (directory_listing_iff ⟨0x400000, 6, 0, 0⟩ fileState (by decide) (by decide)).mpr (by decide)
  refine ⟨hlists, ?_⟩
  obtain ⟨k, hk, s', -, hmax, hcall, hbytes, -⟩ := hlists
  have hlength : (listing ["notes"]).length = 6 := by decide +kernel
  obtain rfl : k = 1 := Nat.le_antisymm hk (hmax 1 (Nat.le_refl 1) hlength.le)
  rw [show fileState.vfs.listDir.take 1 = ["notes"] from rfl, hlength] at hcall hbytes
  exact ⟨s', hcall, hbytes⟩

/-- With a length of `2 ^ 63` the kernel panics. -/
theorem huge_listing_panics : (∃ p, handleLs ⟨0x400000, 2 ^ 63, 0, 0⟩ fileState = .panic p) ∧
    ¬ ListsDirectory ⟨0x400000, 2 ^ 63, 0, 0⟩ fileState := by
  have hpanic : ∃ p, handleLs ⟨0x400000, 2 ^ 63, 0, 0⟩ fileState = .panic p := ⟨_, rfl⟩
  refine ⟨hpanic, ?_⟩
  rintro ⟨k, -, s', -, -, hret, -⟩
  obtain ⟨p, hp⟩ := hpanic
  rw [hp] at hret
  cases hret

end Turnix
