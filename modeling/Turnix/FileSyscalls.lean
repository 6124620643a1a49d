import Turnix.UserPointers
import Turnix.VfsFrame

/-!
# The file system behind the system calls

What user space can do to the file system with the arguments of its calls.

* `writes_survive_iff`: `Seek` stores any offset, and a later `WriteFile` pads the file up to it. The writes of a
  sequence of calls are safe exactly if their buffers are slices, and the files that they go to end within
  `isize::MAX` bytes and within what the heap can serve.
* `paths_apart_iff`: a path that is not UTF-8 is taken as the empty string, so all of those name one entry;
  and `Unlink` closes descriptors, so a later `Open` can get another one.
-/

namespace Turnix

open Lib Libturnix Libturnix.LibturnixLemmas VfsLemmas VfsRunLemmas VfsFrameLemmas

/-- A call from user space, with the memory as the caller has left it and with what the heap can serve. -/
structure UserCall where
  call : Syscall
  args : SyscallArgs
  mem : Nat → UInt8
  room : Nat → Bool

/-- What the kernel answers. -/
def handleUser (others : SysState → SysState) (s : SysState) (c : UserCall) : Outcome SyscallResult :=
  handleSyscall others c.call c.args { s with mem := c.mem, room := c.room }

/-- A call that returns; there is no step after a panic. -/
def userStep (others : SysState → SysState) (s : SysState) (c : UserCall) : Option SysState :=
  match handleUser others s c with
  | .ret _ s' => some s'
  | .panic _ => none
  | .exited _ => none

/-! ## Offsets -/

/-- A `WriteFile` returns, and where it reports an error the file system is as before. -/
def Survives (others : SysState → SysState) (s : SysState) (c : UserCall) : Prop :=
  c.call = .writeFile → ∃ result s', handleUser others s c = .ret result s' ∧
    ((∀ val, result ≠ .success val) → s'.vfs = s.vfs)

/-- A `WriteFile` with a buffer: its length is one of a slice, and if there is a file behind the descriptor, it can
take the bytes. -/
def WriteFits (s : SysState) (c : UserCall) : Prop :=
  c.call = .writeFile → c.args.arg1 ≠ 0 → c.args.arg2 ≠ 0 → c.args.arg2 ≤ isizeMax ∧
    ∀ offset old, s.vfs.fileAt c.args.arg0 = some (offset, old) → FileFits c.room offset old.length c.args.arg2

namespace FileSyscallLemmas

variable {v v' : Vfs} {others : SysState → SysState} {s : SysState} {c : UserCall}

theorem survives_iff : Survives others s c ↔ WriteFits s c := by
  refine imp_congr_right fun hcall => ?_
  unfold handleUser
  rw [hcall]
  show (∃ result s', handleWriteFile c.args { s with mem := c.mem, room := c.room } = .ret result s' ∧ _) ↔ _
  have hpanics := @write_panics_iff c.room s.vfs c.args.arg0 (bytesAt c.mem c.args.arg1 c.args.arg2) s.term
  rw [length_bytesAt] at hpanics
  unfold handleWriteFile withSlice
  dsimp only [SysState.touch]
  by_cases hnull : c.args.arg1 = 0 ∨ c.args.arg2 = 0
  · rw [if_pos hnull]
    refine iff_of_true ⟨_, _, rfl, fun _ => rfl⟩ fun hptr hzero => ?_
    exact absurd hnull (not_or.mpr ⟨hptr, hzero⟩)
  obtain ⟨hptr, hzero⟩ := not_or.mp hnull
  rw [if_neg hnull]
  by_cases hlen : c.args.arg2 ≤ isizeMax
  · rw [if_pos hlen]
    split
    · next r hr =>
      refine iff_of_true ⟨_, _, rfl, fun herr => (write_framed hr).1 ?_⟩ fun _ _ => ⟨hlen, fun o old hfile => ?_⟩
      · cases hret : r.ret with
        | none => rfl
        | some n => exact absurd (congrArg ofOption hret) (herr n)
      · by_contra hfull
        obtain ⟨p, hp⟩ := hpanics.mpr ⟨o, old, hfile, hfull⟩
        rw [hr] at hp
        cases hp
    · next p hp =>
      obtain ⟨o, old, hfile, hfull⟩ := hpanics.mp ⟨p, hp⟩
      refine iff_of_false ?_ fun hfits => hfull ((hfits hptr hzero).2 o old hfile)
      rintro ⟨result, s', hret, -⟩
      cases hret
  · rw [if_neg hlen]
    refine iff_of_false ?_ fun hfits => hlen (hfits hptr hzero).1
    rintro ⟨result, s', hret, -⟩
    cases hret

end FileSyscallLemmas

open FileSyscallLemmas

/-- In a sequence of calls, whatever the offsets and the buffers: no `WriteFile` makes the kernel panic, and none that
reports an error changes the file system, exactly if every buffer is one of at most `isize::MAX` bytes, and every
file that is written to can grow, by zeros up to the descriptor's offset and then by the buffer, within `isize::MAX`
bytes and what the heap serves. -/
theorem writes_survive_iff (others : SysState → SysState) (s : SysState) (calls : List UserCall) :
    AllSteps (userStep others) (Survives others) s calls ↔ AllSteps (userStep others) WriteFits s calls :=
  allSteps_congr fun _ _ _ => survives_iff

/-- The calls that seek to `offset` in file 0 and write one byte there. -/
def seekAndWrite (offset : Nat) (room : Nat → Bool) : List UserCall :=
  [⟨.seek, ⟨0, offset, 0, 0⟩, fun _ => 7, room⟩, ⟨.writeFile, ⟨0, 0x400000, 1, 0⟩, fun _ => 7, room⟩]

/-- Eight bytes behind the start of a file of three, with memory for 16. -/
theorem writes_survive_sample :
    AllSteps (userStep id) (Survives id) fileState (seekAndWrite 8 fun n => n ≤ 16) := by
  refine (writes_survive_iff id fileState _).mpr ?_
  unfold seekAndWrite
  refine ⟨fun h => Syscall.noConfusion h, fun s hs => ⟨fun _ _ _ => ⟨by decide, fun offset old hfile => ?_⟩,
    fun _ _ => trivial⟩⟩
  cases hs
  cases hfile
  decide

/-- A `Seek` to `2 ^ 63` is accepted, and the `WriteFile` of one byte panics. So does one at 200000 with a heap of 100
KiB. -/
theorem seek_far_write_panics :
    (∃ s', userStep id fileState ⟨.seek, ⟨0, 2 ^ 63, 0, 0⟩, fun _ => 7, ample⟩ = some s' ∧
      handleUser id s' ⟨.writeFile, ⟨0, 0x400000, 1, 0⟩, fun _ => 7, ample⟩ = .panic ⟨"capacity overflow"⟩) ∧
    ∃ s', userStep id fileState ⟨.seek, ⟨0, 200000, 0, 0⟩, fun _ => 7, ample⟩ = some s' ∧
      handleUser id s' ⟨.writeFile, ⟨0, 0x400000, 1, 0⟩, fun _ => 7, fun n => n ≤ 102400⟩ =
        .panic ⟨"memory allocation failed"⟩ :=
  ⟨⟨_, rfl, rfl⟩, _, rfl, rfl⟩

/-! ## Paths -/

/-- A byte string that a caller can pass: it is not empty, and not longer than a slice can be. -/
structure Passable (path : List UInt8) : Prop where
  ne_nil : path ≠ []
  length_le : path.length ≤ isizeMax

/-- The call names the path with its first two arguments. -/
def UserCall.Passes (c : UserCall) (path : List UInt8) : Prop :=
  c.args.arg0 ≠ 0 ∧ bytesAt c.mem c.args.arg0 c.args.arg1 = path

/-- The name the handlers make of a path. -/
def pathName (path : List UInt8) : String := (fromUtf8 path).getD ""

/-- What the caller sees of a call: the result and its memory. -/
def Outcome.seen : Outcome SyscallResult → Option (SyscallResult × (Nat → UInt8))
  | .ret result s => some (result, s.mem)
  | .panic _ => none
  | .exited _ => none

/-- A `Mkdir` or `Unlink` of `p` does not change what a `Stat` or `Open` of `q` answers. -/
def Unaffected (others : SysState → SysState) (s : SysState) (p q : List UInt8) : Prop :=
  ∀ c, (c.call = .mkdir ∨ c.call = .unlink) → c.Passes p →
    ∀ result s', handleUser others s c = .ret result s' →
      ∀ c', (c'.call = .stat ∨ c'.call = .open) → c'.Passes q →
        (handleUser others s' c').seen = (handleUser others s c').seen

/-- If the path is not UTF-8, every call on it reports an error and changes nothing. -/
def RejectsInvalid (others : SysState → SysState) (s : SysState) (p : List UInt8) : Prop :=
  fromUtf8 p = none → ∀ c,
    (c.call = .mkdir ∨ c.call = .open ∨ c.call = .stat ∨ c.call = .unlink) → c.Passes p →
      ∃ err touched, handleUser others s c =
        .ret (.error err) { s with mem := c.mem, room := c.room, touched := touched }

/-- One of the paths is UTF-8, and unlinking `p` does not free a descriptor below the lowest free one while
`q` exists. -/
def PathsApart (s : SysState) (p q : List UInt8) : Prop :=
  ((fromUtf8 p).isSome ∨ (fromUtf8 q).isSome) ∧
  (s.vfs.lookup (pathName p) = none ∨ s.vfs.lookup (pathName q) = none ∨
    ∀ j d, s.vfs.openFiles j = some d → d.name = pathName p →
      ∃ free, s.vfs.firstFree = some free ∧ free < j)

namespace FileSyscallLemmas

variable {v v' : Vfs} {others : SysState → SysState} {s : SysState} {c : UserCall} {p q : List UInt8}

/-! ### Names -/

theorem pathName_of_valid {name : String} (h : fromUtf8 p = some name) : pathName p = name := by
  rw [pathName, h, Option.getD_some]

theorem pathName_of_invalid (h : fromUtf8 p = none) : pathName p = "" := by
  rw [pathName, h, Option.getD_none]

theorem pathName_ne_empty {name : String} (hp : p ≠ []) (h : fromUtf8 p = some name) : name ≠ "" := by
  rintro rfl
  exact hp (asBytes_of_fromUtf8 h).symm

theorem pathName_ne (hp : p ≠ []) (hq : q ≠ []) (hpq : p ≠ q)
    (h : (fromUtf8 p).isSome ∨ (fromUtf8 q).isSome) : pathName p ≠ pathName q := by
  cases hp' : fromUtf8 p with
  | none =>
    cases hq' : fromUtf8 q with
    | none =>
      rw [hp', hq'] at h
      exact absurd h (by decide)
    | some b =>
      rw [pathName_of_invalid hp', pathName_of_valid hq']
      exact (pathName_ne_empty hq hq').symm
  | some a =>
    cases hq' : fromUtf8 q with
    | none =>
      rw [pathName_of_valid hp', pathName_of_invalid hq']
      exact pathName_ne_empty hp hp'
    | some b =>
      rw [pathName_of_valid hp', pathName_of_valid hq']
      rintro rfl
      exact hpq ((asBytes_of_fromUtf8 hp').symm.trans (asBytes_of_fromUtf8 hq'))

/-! ### The handlers -/

theorem Passes.nonzero (h : c.Passes p) (hp : Passable p) : ¬ (c.args.arg0 = 0 ∨ c.args.arg1 = 0) := by
  rintro (h0 | h1)
  · exact h.1 h0
  · have hbytes := h.2
    rw [h1] at hbytes
    exact hp.ne_nil hbytes.symm

theorem Passes.length_le (h : c.Passes p) (hp : Passable p) : c.args.arg1 ≤ isizeMax := by
  have hlen := length_bytesAt c.mem c.args.arg0 c.args.arg1
  rw [h.2] at hlen
  exact hlen ▸ hp.length_le

theorem pathAt_of_passes (h : c.Passes p) : pathAt c.mem c.args.arg0 c.args.arg1 = pathName p := by
  rw [pathAt, h.2, pathName]

theorem handlePath_passes (op : Vfs → String → Bool × Vfs) (h : c.Passes p) (hp : Passable p) :
    handlePath op c.args { s with mem := c.mem, room := c.room } =
      .ret (ofBool (op s.vfs (pathName p)).1) { s with
        vfs := (op s.vfs (pathName p)).2
        mem := c.mem
        room := c.room
        touched := s.touched ++ [.text c.args.arg0 c.args.arg1] } := by
  rw [← pathAt_of_passes h, handlePath]
  dsimp only
  rw [if_neg (Passes.nonzero h hp), withSlice_of_le (Passes.length_le h hp)]
  rfl

theorem handleOpen_passes (h : c.Passes p) (hp : Passable p) :
    handleOpen c.args { s with mem := c.mem, room := c.room } =
      .ret (ofOption (s.vfs.open (pathName p)).1) { s with
        vfs := (s.vfs.open (pathName p)).2
        mem := c.mem
        room := c.room
        touched := s.touched ++ [.text c.args.arg0 c.args.arg1] } := by
  rw [← pathAt_of_passes h, handleOpen]
  dsimp only
  rw [if_neg (Passes.nonzero h hp), withSlice_of_le (Passes.length_le h hp)]
  rfl

/-- What `Stat` shows its caller. -/
theorem seen_stat (hstat : c.call = .stat) (hc : c.Passes q) (hq : Passable q) :
    (handleUser others s c).seen =
      if c.args.arg2 = 0 then some (.error 1, c.mem)
      else match s.vfs.stat (pathName q) with
        | some st =>
          if c.args.arg2 % 8 ≠ 0 then none
          else some (.success 0, storeBytes c.mem c.args.arg2
            (toLeBytes 8 st.toAbi.size ++ toLeBytes 4 st.toAbi.fileType))
        | none => some (.error 1, c.mem) := by
  have hnonzero := Passes.nonzero hc hq
  unfold handleUser
  rw [hstat, ← pathAt_of_passes hc]
  show (handleStat c.args _).seen = _
  unfold handleStat
  dsimp only
  by_cases hptr : c.args.arg2 = 0
  · rw [if_pos (.inr (.inr hptr)), if_pos hptr]
    rfl
  · rw [if_neg (by rw [← or_assoc]; exact not_or.mpr ⟨hnonzero, hptr⟩), if_neg hptr,
      withSlice_of_le (Passes.length_le hc hq)]
    show Outcome.seen (match s.vfs.stat (pathAt c.mem c.args.arg0 c.args.arg1) with
      | some st => _ | none => _) = _
    cases s.vfs.stat (pathAt c.mem c.args.arg0 c.args.arg1) with
    | none => rfl
    | some st =>
      dsimp only
      split <;> rfl

theorem seen_open (hopen : c.call = .open) (hc : c.Passes q) (hq : Passable q) :
    (handleUser others s c).seen = some (ofOption (s.vfs.open (pathName q)).1, c.mem) := by
  unfold handleUser
  rw [hopen]
  show (handleOpen c.args _).seen = _
  rw [handleOpen_passes hc hq]
  rfl

/-! ### The file system -/

/-- `open` returns the lowest free descriptor if there is an entry. -/
theorem open_ret (v : Vfs) (path : String) :
    (v.open path).1 = (v.lookup path).bind fun _ => v.firstFree.map Fin.val := by
  rcases open_cases v path with ⟨hnone | hnone, heq⟩ | ⟨j, e, hfree, he, heq⟩
  · rw [heq, hnone]
    rfl
  · rw [heq, hnone]
    cases v.lookup path <;> rfl
  · rw [heq, he, hfree]
    rfl

theorem stat_congr {name : String} (h : v'.lookup name = v.lookup name) : v'.stat name = v.stat name := by
  rw [Vfs.stat, h, Vfs.stat]

theorem lookup_mkdir {name path : String} (hne : name ≠ path) :
    (v.mkdir path).2.lookup name = v.lookup name := by
  unfold Vfs.mkdir
  split
  · rfl
  · unfold Vfs.lookup
    rw [List.find?_append, List.find?_cons_of_neg (by simpa using hne.symm)]
    exact Option.or_none

theorem openFiles_mkdir (path : String) : (v.mkdir path).2.openFiles = v.openFiles := by
  unfold Vfs.mkdir
  split <;> rfl

theorem lookup_unlink {name path : String} (hne : name ≠ path) :
    (v.unlink path).2.lookup name = v.lookup name := by
  unfold Vfs.unlink
  split
  · next index hindex => exact find_eraseIdx_of_ne hne hindex
  · rfl

/-- `Unlink` of a path that exists frees its descriptors. -/
theorem openFiles_unlink {path : String} (h : v.lookup path ≠ none) (j : Fin maxOpenFiles) :
    (v.unlink path).2.openFiles j = (v.openFiles j).filter fun f => f.name ≠ path := by
  have hret : (v.unlink path).1 = true := by
    rw [unlink_ret]
    exact Option.isSome_iff_ne_none.mpr h
  unfold Vfs.unlink at hret ⊢
  split at hret
  · rfl
  · cases hret

theorem descriptor_eq (v : Vfs) (j : Fin maxOpenFiles) : v.descriptor j = v.openFiles j := by
  rw [Vfs.descriptor, dif_pos j.isLt]

theorem firstFree_eq_none : v.firstFree = none ↔ ∀ j, v.openFiles j ≠ none := by
  unfold Vfs.firstFree
  rw [List.find?_eq_none]
  constructor
  · intro h j hnone
    exact h j (List.mem_finRange j) (Option.isNone_iff_eq_none.mpr hnone)
  · intro h j _ hnone
    exact h j (Option.isNone_iff_eq_none.mp hnone)

theorem firstFree_eq_some {j : Fin maxOpenFiles} : v.firstFree = some j ↔
    v.openFiles j = none ∧ ∀ i, i < j → v.openFiles i ≠ none := by
  have hmp : ∀ {k}, v.firstFree = some k → v.openFiles k = none ∧ ∀ i, i < k → v.openFiles i ≠ none := by
    intro k hk
    refine ⟨(descriptor_eq v k).symm.trans (firstFree_free hk), fun i hi => ?_⟩
    rw [← descriptor_eq]
    exact firstFree_lowest hk i hi
  refine ⟨hmp, fun ⟨hnone, hbelow⟩ => ?_⟩
  cases hfree : v.firstFree with
  | none => exact absurd hnone (firstFree_eq_none.mp hfree j)
  | some k =>
    obtain ⟨hk, hk'⟩ := hmp hfree
    rcases lt_trichotomy k j with hlt | rfl | hlt
    · exact absurd hk (hbelow k hlt)
    · rfl
    · exact absurd hnone (hk' j hlt)

/-- Descriptors of one name are closed: the lowest free one stays the same exactly if those were above
it. -/
theorem firstFree_closed {path : String}
    (h : ∀ j, v'.openFiles j = (v.openFiles j).filter fun f => f.name ≠ path) :
    v'.firstFree = v.firstFree ↔ ∀ j d, v.openFiles j = some d → d.name = path →
      ∃ free, v.firstFree = some free ∧ free < j := by
  have hkept : ∀ {j d}, v.openFiles j = some d → d.name ≠ path → v'.openFiles j ≠ none := by
    intro j d hd hname
    rw [h j, hd, Option.filter_some_pos (by simpa using hname)]
    exact Option.some_ne_none d
  have hstays : ∀ {j}, v.openFiles j = none → v'.openFiles j = none := by
    intro j hj
    rw [h j, hj]
    rfl
  constructor
  · intro hsame j d hd hname
    have hclosed : v'.openFiles j = none := by
      rw [h j, hd, Option.filter_some_neg (by simpa using hname)]
    cases hfree : v'.firstFree with
    | none => exact absurd hclosed (firstFree_eq_none.mp hfree j)
    | some k =>
      refine ⟨k, hsame ▸ hfree, ?_⟩
      have hk := (firstFree_eq_some.mp (hsame ▸ hfree : v.firstFree = some k)).1
      rcases lt_trichotomy k j with hlt | rfl | hlt
      · exact hlt
      · rw [hd] at hk
        cases hk
      · exact absurd hclosed ((firstFree_eq_some.mp hfree).2 j hlt)
  · intro habove
    cases hfree : v.firstFree with
    | none =>
      refine firstFree_eq_none.mpr fun j => ?_
      cases hd : v.openFiles j with
      | none => exact absurd hd (firstFree_eq_none.mp hfree j)
      | some d =>
        refine hkept hd fun hname => ?_
        obtain ⟨free, hsome, -⟩ := habove j d hd hname
        rw [hfree] at hsome
        cases hsome
    | some k =>
      obtain ⟨hk, hbelow⟩ := firstFree_eq_some.mp hfree
      refine firstFree_eq_some.mpr ⟨hstays hk, fun i hi => ?_⟩
      cases hd : v.openFiles i with
      | none => exact absurd hd (hbelow i hi)
      | some d =>
        refine hkept hd fun hname => ?_
        obtain ⟨free, hsome, hlt⟩ := habove i d hd hname
        rw [hfree] at hsome
        cases hsome
        exact absurd hi (lt_asymm hlt)

/-! ### Two paths -/

/-- A call whose path is `path`, from address 24 on. A result goes to the 16 bytes in front of it. -/
def callOn (call : Syscall) (path : List UInt8) : UserCall :=
  ⟨call, ⟨24, path.length, 8, 0⟩, fun a => path.getD (a - 24) 0, ample⟩

theorem callOn_passes (call : Syscall) (path : List UInt8) : (callOn call path).Passes path := by
  refine ⟨Nat.succ_ne_zero 23, List.ext_getElem (length_bytesAt _ _ _) fun i _ hi => ?_⟩
  simp [bytesAt, callOn, hi]

theorem handleUser_mkdir (hcall : c.call = .mkdir) (hc : c.Passes p) (hp : Passable p) :
    handleUser others s c = .ret (ofBool (s.vfs.mkdir (pathName p)).1) { s with
      vfs := (s.vfs.mkdir (pathName p)).2
      mem := c.mem
      room := c.room
      touched := s.touched ++ [.text c.args.arg0 c.args.arg1] } := by
  unfold handleUser
  rw [hcall]
  exact handlePath_passes Vfs.mkdir hc hp

theorem handleUser_unlink (hcall : c.call = .unlink) (hc : c.Passes p) (hp : Passable p) :
    handleUser others s c = .ret (ofBool (s.vfs.unlink (pathName p)).1) { s with
      vfs := (s.vfs.unlink (pathName p)).2
      mem := c.mem
      room := c.room
      touched := s.touched ++ [.text c.args.arg0 c.args.arg1] } := by
  unfold handleUser
  rw [hcall]
  exact handlePath_passes Vfs.unlink hc hp

/-- Two states of the file system that answer alike for the name of `q`. -/
theorem seen_congr (hq : Passable q) {s' : SysState} (hc : c.call = .stat ∨ c.call = .open)
    (hpass : c.Passes q) (hlook : s'.vfs.lookup (pathName q) = s.vfs.lookup (pathName q))
    (hfree : s.vfs.lookup (pathName q) = none ∨ s'.vfs.firstFree = s.vfs.firstFree) :
    (handleUser others s' c).seen = (handleUser others s c).seen := by
  rcases hc with hc | hc
  · rw [seen_stat hc hpass hq, seen_stat hc hpass hq, stat_congr hlook]
  · rw [seen_open hc hpass hq, seen_open hc hpass hq, open_ret, open_ret, hlook]
    rcases hfree with hnone | hsame
    · rw [hnone]
      rfl
    · rw [hsame]

theorem unaffected_of_apart (hp : Passable p) (hq : Passable q) (hpq : p ≠ q) (h : PathsApart s p q) :
    Unaffected others s p q := by
  obtain ⟨hvalid, hslots⟩ := h
  have hne := (pathName_ne hp.ne_nil hq.ne_nil hpq hvalid).symm
  intro c hcall hc result s' hret c' hcall' hc'
  rcases hcall with hcall | hcall
  · rw [handleUser_mkdir hcall hc hp] at hret
    cases hret
    refine seen_congr hq hcall' hc' (lookup_mkdir hne) (.inr ?_)
    unfold Vfs.firstFree
    dsimp only
    rw [openFiles_mkdir]
  · rw [handleUser_unlink hcall hc hp] at hret
    cases hret
    refine seen_congr hq hcall' hc' (lookup_unlink hne) ?_
    by_cases hnone : s.vfs.lookup (pathName p) = none
    · have hfails : (s.vfs.unlink (pathName p)).1 = false := by rw [unlink_ret, hnone]; rfl
      exact .inr (congrArg Vfs.firstFree ((unlink_framed s.vfs (pathName p)).1 hfails))
    · exact (hslots.resolve_left hnone).imp id (firstFree_closed (openFiles_unlink hnone)).mpr

theorem lookup_mkdir_self (v : Vfs) (path : String) : (v.mkdir path).2.lookup path ≠ none := by
  unfold Vfs.mkdir
  split
  · next h => exact (any_name_iff v path).mp h
  · unfold Vfs.lookup
    rw [List.find?_append, List.find?_cons_of_pos (by simp)]
    cases v.entries.find? (·.name = path) <;> exact Option.some_ne_none _

theorem lookup_unlink_self {path : String} (hnames : (v.entries.map VfsEntry.name).Nodup)
    (h : v.lookup path ≠ none) : (v.unlink path).2.lookup path = none := by
  have hret : (v.unlink path).1 = true := by
    rw [unlink_ret]
    exact Option.isSome_iff_ne_none.mpr h
  exact lookup_eq_none.mpr (unlink_absent hnames (Prod.ext hret rfl))

/-- A `Stat` tells whether there is an entry. -/
theorem lookup_of_seen (hq : Passable q) {s' : SysState}
    (h : (handleUser others s' (callOn .stat q)).seen = (handleUser others s (callOn .stat q)).seen) :
    s'.vfs.lookup (pathName q) = none ↔ s.vfs.lookup (pathName q) = none := by
  rw [seen_stat rfl (callOn_passes .stat q) hq, seen_stat rfl (callOn_passes .stat q) hq,
    if_neg (show ¬ (callOn .stat q).args.arg2 = 0 from Nat.succ_ne_zero 7),
    if_neg (show ¬ (callOn .stat q).args.arg2 = 0 from Nat.succ_ne_zero 7)] at h
  unfold Vfs.stat at h
  cases hs : s.vfs.lookup (pathName q) <;> cases hs' : s'.vfs.lookup (pathName q) <;>
    simp_all

/-- Two paths that are not UTF-8 name one entry, and one of the two calls changes whether it is there. -/
theorem valid_of_unaffected (hp : Passable p) (hq : Passable q)
    (hnames : (s.vfs.entries.map VfsEntry.name).Nodup) (h : Unaffected others s p q) :
    (fromUtf8 p).isSome ∨ (fromUtf8 q).isSome := by
  by_contra hnot
  obtain ⟨hp', hq'⟩ := not_or.mp hnot
  have hsame : pathName p = pathName q := by
    rw [pathName_of_invalid (Option.not_isSome_iff_eq_none.mp hp'),
      pathName_of_invalid (Option.not_isSome_iff_eq_none.mp hq')]
  by_cases hnone : s.vfs.lookup (pathName q) = none
  · have hseen := h _ (.inl rfl) (callOn_passes .mkdir p) _ _
      (handleUser_mkdir rfl (callOn_passes .mkdir p) hp) _ (.inl rfl) (callOn_passes .stat q)
    refine lookup_mkdir_self s.vfs (pathName q) ?_
    have hlook := (lookup_of_seen hq hseen).mpr hnone
    rwa [hsame] at hlook
  · have hseen := h _ (.inr rfl) (callOn_passes .unlink p) _ _
      (handleUser_unlink rfl (callOn_passes .unlink p) hp) _ (.inl rfl) (callOn_passes .stat q)
    refine hnone ((lookup_of_seen hq hseen).mp ?_)
    rw [hsame]
    exact lookup_unlink_self hnames hnone

theorem ofOption_inj {a b : Option Nat} (h : ofOption a = ofOption b) : a = b := by
  cases a <;> cases b <;> simp_all [ofOption]

theorem apart_of_unaffected (hp : Passable p) (hq : Passable q) (hpq : p ≠ q)
    (hnames : (s.vfs.entries.map VfsEntry.name).Nodup) (h : Unaffected others s p q) :
    PathsApart s p q := by
  have hvalid := valid_of_unaffected hp hq hnames h
  refine ⟨hvalid, ?_⟩
  by_cases hpnone : s.vfs.lookup (pathName p) = none
  · exact .inl hpnone
  · by_cases hqnone : s.vfs.lookup (pathName q) = none
    · exact .inr (.inl hqnone)
    · refine .inr (.inr ((firstFree_closed (openFiles_unlink hpnone)).mp ?_))
      have hseen := h _ (.inr rfl) (callOn_passes .unlink p) _ _
        (handleUser_unlink rfl (callOn_passes .unlink p) hp) _ (.inr rfl) (callOn_passes .open q)
      rw [seen_open rfl (callOn_passes .open q) hq, seen_open rfl (callOn_passes .open q) hq] at hseen
      have hopen := ofOption_inj (congrArg Prod.fst (Option.some.inj hseen))
      rw [open_ret, open_ret] at hopen
      dsimp only at hopen
      rw [lookup_unlink (pathName_ne hp.ne_nil hq.ne_nil hpq hvalid).symm] at hopen
      obtain ⟨e, he⟩ := Option.ne_none_iff_exists'.mp hqnone
      rw [he] at hopen
      exact Option.map_injective Fin.val_injective hopen

/-- An invalid path names an entry that `Mkdir` makes or `Unlink` removes. -/
theorem valid_of_rejects (hp : Passable p) (h : RejectsInvalid others s p) : (fromUtf8 p).isSome := by
  by_contra hnot
  have hreject := h (Option.not_isSome_iff_eq_none.mp hnot)
  by_cases hnone : s.vfs.lookup (pathName p) = none
  · obtain ⟨err, touched, heq⟩ := hreject _ (.inl rfl) (callOn_passes .mkdir p)
    rw [handleUser_mkdir rfl (callOn_passes .mkdir p) hp, mkdir_ret, hnone] at heq
    cases heq
  · obtain ⟨err, touched, heq⟩ := hreject _ (.inr (.inr (.inr rfl))) (callOn_passes .unlink p)
    rw [handleUser_unlink rfl (callOn_passes .unlink p) hp, unlink_ret,
      Option.isSome_iff_ne_none.mpr hnone] at heq
    cases heq

end FileSyscallLemmas

/-- For two different paths, in a state with distinct names: the calls on `p` leave the answers for `q` alone
exactly if the paths do not both fail to be UTF-8 and no descriptor is freed that the next `Open` would take;
and the calls on `p` reject it when it is not UTF-8 exactly if it is UTF-8. -/
theorem paths_apart_iff (others : SysState → SysState) {s : SysState} {p q : List UInt8}
    (hnames : (s.vfs.entries.map VfsEntry.name).Nodup) (hp : Passable p) (hq : Passable q) (hpq : p ≠ q) :
    (Unaffected others s p q ↔ PathsApart s p q) ∧
    (RejectsInvalid others s p ↔ (fromUtf8 p).isSome) := by
  refine ⟨⟨apart_of_unaffected hp hq hpq hnames, unaffected_of_apart hp hq hpq⟩, valid_of_rejects hp, ?_⟩
  intro hvalid hnone
  rw [hnone] at hvalid
  cases hvalid

/-- The path `a`, and one that is not UTF-8. -/
theorem paths_apart_sample :
    Unaffected id fileState (asBytes "a") [0xFF] ∧ RejectsInvalid id fileState (asBytes "a") := by
  have hvalid : (fromUtf8 (asBytes "a")).isSome := by rw [fromUtf8_asBytes]; rfl
  have hiff := @paths_apart_iff id fileState (asBytes "a") [0xFF] (by decide) ⟨by decide, by decide⟩
    ⟨by decide, by decide⟩ (by decide)
  refine ⟨hiff.1.mpr ⟨.inl hvalid, .inl ?_⟩, hiff.2.mpr hvalid⟩
  rw [pathName_of_valid (fromUtf8_asBytes "a")]
  decide

/-- `Mkdir` of the byte `0xFF` succeeds, and then `Stat` of the byte `0xFE`, which failed before, finds a
directory. -/
theorem invalid_paths_alias : ∃ s₁ s₂ s₃,
    handleUser id fileState (callOn .stat [0xFE]) = .ret (.error 1) s₁ ∧
    handleUser id fileState (callOn .mkdir [0xFF]) = .ret (.success 0) s₂ ∧
    handleUser id s₂ (callOn .stat [0xFE]) = .ret (.success 0) s₃ :=
  ⟨_, _, _, rfl, rfl, rfl⟩

end Turnix
