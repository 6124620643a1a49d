import Turnix.Syscall

/-!
# System calls, the user's side

`userland/libturnix/src/lib.rs`. A wrapper loads the registers, executes `syscall` and takes a
negative value in `rax` for a failure. Every handler of the kernel reports a failure as
`SyscallResult::Error(1)`, and `syscall_dispatch` passes the code on as it is. So `rax` is 1 after a
failed call, and the wrapper takes it for a success: `wrapper_decodes_iff`.
-/

namespace Turnix

open Lib

/-- The pointer and the length of a slice of the program: not null, at most `isize::MAX` bytes. -/
structure Slice where
  ptr : Nat
  len : Nat
  ptr_ne : ptr ≠ 0
  len_le : len ≤ isizeMax

namespace Libturnix

/-! ## The wrappers

`others` is what the other tasks do during a yield, `regs` what the registers hold that a wrapper
does not load. -/

section

variable (others : SysState → SysState) (regs : SyscallRegs)

/-- `syscall0`. -/
def syscall0 (num : Nat) (s : SysState) : Outcome Nat := syscallDispatch others { regs with rax := num } s

/-- `syscall1`. -/
def syscall1 (num arg0 : Nat) (s : SysState) : Outcome Nat :=
  syscallDispatch others { regs with rax := num, rdi := arg0 } s

/-- `syscall2`. -/
def syscall2 (num arg0 arg1 : Nat) (s : SysState) : Outcome Nat :=
  syscallDispatch others { regs with rax := num, rdi := arg0, rsi := arg1 } s

/-- `syscall3`. -/
def syscall3 (num arg0 arg1 arg2 : Nat) (s : SysState) : Outcome Nat :=
  syscallDispatch others { regs with rax := num, rdi := arg0, rsi := arg1, rdx := arg2 } s

/-- `if (res as i64) < 0 { None } else { Some(res) }`. -/
def decodeValue (res : Nat) : Option Nat := if asI64 res < 0 then none else some res

/-- `(res as i64) >= 0`. -/
def decodeFlag (res : Nat) : Bool := asI64 res ≥ 0

/-- `read`. -/
def read (fd : Nat) (buf : Slice) (s : SysState) : Outcome (Option Nat) :=
  (syscall3 others regs Syscall.read.id fd buf.ptr buf.len s).map decodeValue

/-- `open`. -/
def «open» (path : Slice) (s : SysState) : Outcome (Option Nat) :=
  (syscall2 others regs Syscall.open.id path.ptr path.len s).map decodeValue

/-- `ls`. -/
def ls (buf : Slice) (s : SysState) : Outcome (Option Nat) :=
  (syscall2 others regs Syscall.ls.id buf.ptr buf.len s).map decodeValue

/-- `let mut st = Stat { size: 0, file_type: 0 }`, with `st` the memory of the variable. -/
def initStat (st : Slice) (s : SysState) : SysState :=
  { s with mem := storeBytes s.mem st.ptr (toLeBytes 8 0 ++ toLeBytes 4 0) }

/-- The value of the variable `st`. -/
def statAt (mem : Nat → UInt8) (st : Slice) : Stat :=
  ⟨fromLeBytes (bytesAt mem st.ptr 8), fromLeBytes (bytesAt mem (st.ptr + 8) 4)⟩

/-- `stat`. -/
def stat (path st : Slice) (s : SysState) : Outcome (Option Stat) :=
  match syscall3 others regs Syscall.stat.id path.ptr path.len st.ptr (initStat st s) with
  | .ret res s => .ret (if asI64 res < 0 then none else some (statAt s.mem st)) s
  | .panic p => .panic p
  | .exited s => .exited s

/-- `seek`. -/
def seek (fd offset : Nat) (s : SysState) : Outcome Bool :=
  (syscall2 others regs Syscall.seek.id fd offset s).map decodeFlag

/-- `write`. -/
def write (fd : Nat) (buf : Slice) (s : SysState) : Outcome (Option Nat) :=
  (syscall3 others regs Syscall.writeFile.id fd buf.ptr buf.len s).map decodeValue

/-- `mkdir`. -/
def mkdir (path : Slice) (s : SysState) : Outcome Bool :=
  (syscall2 others regs Syscall.mkdir.id path.ptr path.len s).map decodeFlag

/-- `unlink`. -/
def unlink (path : Slice) (s : SysState) : Outcome Bool :=
  (syscall2 others regs Syscall.unlink.id path.ptr path.len s).map decodeFlag

/-- `uptime`. -/
def uptime (s : SysState) : Outcome Nat := syscall0 others regs Syscall.uptime.id s

/-- `getpid`. -/
def getpid (s : SysState) : Outcome Nat := syscall0 others regs Syscall.getPid.id s

/-- `exit`, up to its loop, which is not reached. -/
def exit (code : Int) (s : SysState) : Outcome Nat := syscall1 others regs Syscall.exit.id (i64AsU64 code) s

end

/-- A call of one of the wrappers. -/
inductive Call
  | read (fd : Nat) (buf : Slice)
  | open (path : Slice)
  | ls (buf : Slice)
  | stat (path st : Slice)
  | seek (fd offset : Nat)
  | write (fd : Nat) (buf : Slice)
  | mkdir (path : Slice)
  | unlink (path : Slice)

/-- What a wrapper returns to the program. -/
inductive Report
  | value (v : Option Nat)
  | flag (ok : Bool)
  | stat (st : Option Stat)
deriving DecidableEq, Repr

/-- `None` or `false`. -/
def Report.failed : Report → Bool
  | value v => v.isNone
  | flag ok => !ok
  | stat st => st.isNone

section

variable (others : SysState → SysState) (regs : SyscallRegs)

/-- Run the wrapper. -/
def Call.run (s : SysState) : Call → Outcome Report
  | read fd buf => (Libturnix.read others regs fd buf s).map .value
  | .open path => (Libturnix.open others regs path s).map .value
  | ls buf => (Libturnix.ls others regs buf s).map .value
  | .stat path st => (Libturnix.stat others regs path st s).map .stat
  | seek fd offset => (Libturnix.seek others regs fd offset s).map .flag
  | write fd buf => (Libturnix.write others regs fd buf s).map .value
  | mkdir path => (Libturnix.mkdir others regs path s).map .flag
  | unlink path => (Libturnix.unlink others regs path s).map .flag

/-- The system call behind a wrapper. -/
def Call.syscall : Call → Syscall
  | read .. => .read
  | .open .. => .open
  | ls .. => .ls
  | stat .. => .stat
  | seek .. => .seek
  | write .. => .writeFile
  | mkdir .. => .mkdir
  | unlink .. => .unlink

/-- The arguments its handler gets. -/
def Call.args : Call → SyscallArgs
  | read fd buf => ⟨fd, buf.ptr, buf.len, regs.r10⟩
  | .open path => ⟨path.ptr, path.len, regs.rdx, regs.r10⟩
  | ls buf => ⟨buf.ptr, buf.len, regs.rdx, regs.r10⟩
  | stat path st => ⟨path.ptr, path.len, st.ptr, regs.r10⟩
  | seek fd offset => ⟨fd, offset, regs.rdx, regs.r10⟩
  | write fd buf => ⟨fd, buf.ptr, buf.len, regs.r10⟩
  | mkdir path => ⟨path.ptr, path.len, regs.rdx, regs.r10⟩
  | unlink path => ⟨path.ptr, path.len, regs.rdx, regs.r10⟩

/-- The state at the `syscall` instruction. -/
def Call.entry (s : SysState) : Call → SysState
  | stat _ st => initStat st s
  | _ => s

/-- The wrappers that return a number. -/
def Call.counts : Call → Bool
  | read .. | .open .. | ls .. | write .. => true
  | _ => false

/-- The value of a wrapper as it follows from `rax` and the state after the call. -/
def Call.decode (res : Nat) (s : SysState) : Call → Report
  | read .. | .open .. | ls .. | write .. => .value (decodeValue res)
  | stat _ st => .stat (if asI64 res < 0 then none else some (statAt s.mem st))
  | seek .. | mkdir .. | unlink .. => .flag (decodeFlag res)

/-- The wrapper recovers the constructor of the handler's result: it reports a failure exactly on
an `Error`, and the wrappers that count report the value of a `Success` below `2 ^ 63`. -/
def Call.Decodes (c : Call) (s : SysState) : Prop :=
  ∀ result s', handleSyscall others c.syscall (c.args regs) (c.entry s) = .ret result s' →
    ∃ report, c.run others regs s = .ret report s' ∧
      (report.failed = true ↔ ∃ err, result = .error err) ∧
      ∀ v, result = .success v → v < 2 ^ 63 → c.counts = true → report = .value (some v)

end

/-- There is no open descriptor of that number, or there is no contents behind it. -/
def unbacked (v : Vfs) (fd : Nat) : Prop :=
  match v.descriptor fd with
  | none => True
  | some d => d.name ≠ "tty" ∧ (v.lookup d.name).bind VfsEntry.data = none

/-- The arguments and states on which the handler answers with an error. -/
def Call.rejected (s : SysState) : Call → Prop
  | read fd buf => buf.len = 0 ∨ unbacked s.vfs fd
  | .open path =>
    path.len = 0 ∨ s.vfs.lookup (pathAt s.mem path.ptr path.len) = none ∨ s.vfs.firstFree = none
  | ls buf => buf.len = 0
  | stat path _ => path.len = 0 ∨ s.vfs.lookup (pathAt s.mem path.ptr path.len) = none
  | seek fd _ => s.vfs.descriptor fd = none
  | write fd buf =>
    buf.len = 0 ∨ unbacked s.vfs fd ∨
      (s.vfs.descriptor fd).map FileDescriptor.name = some "tty" ∧
        fromUtf8 (bytesAt s.mem buf.ptr buf.len) = none
  | mkdir path => path.len = 0 ∨ s.vfs.lookup (pathAt s.mem path.ptr path.len) ≠ none
  | unlink path => path.len = 0 ∨ s.vfs.lookup (pathAt s.mem path.ptr path.len) = none

/-! ## What the handlers answer -/

namespace LibturnixLemmas

/-- A failure, with the code that all handlers use. -/
def Rejects (o : Outcome SyscallResult) : Prop := ∃ s, o = .ret (.error 1) s

/-- If the call returns then with a value that is not negative as an `i64`. -/
def Accepts (o : Outcome SyscallResult) : Prop :=
  ∀ result s, o = .ret result s → ∃ v, result = .success v ∧ v < 2 ^ 63

/-- The handler rejects exactly under `P`. -/
def RejectsIff (o : Outcome SyscallResult) (P : Prop) : Prop := (P → Rejects o) ∧ (¬ P → Accepts o)

theorem accepts_success {v : Nat} {s : SysState} (hv : v < 2 ^ 63) :
    Accepts (.ret (.success v) s) := by
  rintro result s' ⟨⟩
  exact ⟨v, rfl, hv⟩

theorem length_bytesAt (mem : Nat → UInt8) (ptr len : Nat) : (bytesAt mem ptr len).length = len := by
  rw [bytesAt, List.length_map, List.length_range]

theorem len_lt (sl : Slice) : sl.len < 2 ^ 63 := by
  have h := sl.len_le
  unfold isizeMax at h
  omega

/-- A `read` that returns fills at most the buffer, and fails only on a descriptor with nothing
behind it. -/
theorem read_ret (v : Vfs) (term : Terminal) (fd : Nat) (buf : List UInt8) :
    (unbacked v fd → (v.read term fd buf).ret = none) ∧
    (¬ unbacked v fd → ∃ n, (v.read term fd buf).ret = some n ∧ n ≤ buf.length) := by
  unfold unbacked Vfs.read
  cases hd : v.descriptor fd with
  | none => exact ⟨fun _ => rfl, fun h => absurd trivial h⟩
  | some d =>
    by_cases htty : d.name = "tty"
    · refine ⟨fun h => absurd htty h.1, fun _ => ?_⟩
      simp only [htty, ↓reduceIte]
      split
      · exact ⟨_, rfl, Nat.min_le_left _ _⟩
      · exact ⟨0, rfl, Nat.zero_le _⟩
    · simp only [htty, ↓reduceIte]
      cases hl : v.lookup d.name with
      | none => exact ⟨fun _ => rfl, fun h => absurd ⟨htty, by rw [Option.bind_none]⟩ h⟩
      | some entry =>
        cases hdata : entry.data with
        | none =>
          refine ⟨fun _ => by simp only [hdata], fun h => absurd ⟨htty, ?_⟩ h⟩
          rw [Option.bind_some, hdata]
        | some data =>
          simp only [Option.bind_some, hdata, reduceCtorEq, and_false, false_imp_iff, true_and,
            not_false_eq_true, true_imp_iff]
          split
          · exact ⟨0, rfl, Nat.zero_le _⟩
          · exact ⟨_, rfl, Nat.min_le_left _ _⟩

/-- The same for `write`; on the terminal it also refuses what is not UTF-8. -/
theorem write_ret (v : Vfs) (room : Nat → Bool) (term : Terminal) (fd : Nat) (buf : List UInt8) :
    (unbacked v fd ∨
        (v.descriptor fd).map FileDescriptor.name = some "tty" ∧ fromUtf8 buf = none →
      v.write room term fd buf = .ok ⟨none, v, term⟩) ∧
    (¬ (unbacked v fd ∨
        (v.descriptor fd).map FileDescriptor.name = some "tty" ∧ fromUtf8 buf = none) →
      ∀ r, v.write room term fd buf = .ok r → r.ret = some buf.length) := by
  unfold unbacked
  cases hd : v.descriptor fd with
  | none => exact ⟨fun _ => by simp only [Vfs.write, hd], fun h => absurd (.inl trivial) h⟩
  | some d =>
    by_cases htty : d.name = "tty"
    · cases hu : fromUtf8 buf with
      | none =>
        refine ⟨fun _ => by simp only [Vfs.write, hd, htty, hu, ↓reduceIte], fun h => absurd (.inr ⟨?_, rfl⟩) h⟩
        rw [Option.map_some, htty]
      | some str =>
        refine ⟨?_, fun _ r hr => ?_⟩
        · rintro (⟨hne, -⟩ | ⟨-, hnone⟩)
          · exact absurd htty hne
          · cases hnone
        · simp only [Vfs.write, hd, htty, hu, ↓reduceIte] at hr
          cases hr
          rfl
    · have hne : ¬ ((some d).map FileDescriptor.name = some "tty" ∧ fromUtf8 buf = none) := by
        rintro ⟨h, -⟩
        exact htty (Option.some.inj h)
      simp only [hne, or_false]
      cases hl : v.lookup d.name with
      | none =>
        exact ⟨fun _ => by simp only [Vfs.write, hd, htty, hl, ↓reduceIte],
          fun h => absurd ⟨htty, by rw [Option.bind_none]⟩ h⟩
      | some entry =>
        cases hdata : entry.data with
        | none =>
          refine ⟨fun _ => by simp only [Vfs.write, hd, htty, hl, hdata, ↓reduceIte],
            fun h => absurd ⟨htty, ?_⟩ h⟩
          rw [Option.bind_some, hdata]
        | some data =>
          refine ⟨fun h => ?_, fun _ r hr => VfsLemmas.write_file_ret hd htty hl hdata hr⟩
          rw [Option.bind_some, hdata] at h
          cases h.2

theorem any_name_iff (v : Vfs) (path : String) :
    v.entries.any (·.name = path) = true ↔ v.lookup path ≠ none := by
  rw [Vfs.lookup, ne_eq, List.find?_eq_none, List.any_eq_true]
  push Not
  rfl

theorem mkdir_ret (v : Vfs) (path : String) : (v.mkdir path).1 = (v.lookup path).isNone := by
  unfold Vfs.mkdir
  split
  · next h =>
    have hne := (any_name_iff v path).mp h
    cases hl : v.lookup path with
    | none => exact absurd hl hne
    | some _ => rfl
  · next h =>
    rw [any_name_iff, not_not] at h
    rw [h]
    rfl

theorem unlink_ret (v : Vfs) (path : String) : (v.unlink path).1 = (v.lookup path).isSome := by
  have hfind : v.lookup path = none ↔ v.entries.findIdx? (·.name = path) = none := by
    rw [Vfs.lookup, List.find?_eq_none, List.findIdx?_eq_none_iff]
    simp only [decide_eq_true_eq, decide_eq_false_iff_not]
  unfold Vfs.unlink
  cases hl : v.lookup path with
  | none =>
    rw [hfind.mp hl]
    rfl
  | some entry =>
    cases hi : v.entries.findIdx? (·.name = path) with
    | none =>
      rw [hfind.mpr hi] at hl
      cases hl
    | some i => rfl

theorem seek_ret (v : Vfs) (fd offset : Nat) : (v.seek fd offset).1 = (v.descriptor fd).isSome := by
  unfold Vfs.seek
  cases v.descriptor fd <;> rfl

theorem length_lsLoop {bufLen : Nat} : ∀ (names : List String) {out : List UInt8},
    out.length ≤ bufLen → (lsLoop bufLen names out).length ≤ bufLen
  | [], _, h => h
  | name :: names, out, h => by
    unfold lsLoop
    dsimp only
    split
    · exact h
    · next hfits =>
      refine length_lsLoop names ?_
      simp only [List.length_append, List.length_cons, List.length_nil]
      omega

/-- The test that most handlers begin with and the slice that they make then, for a slice from a wrapper. -/
theorem rejectsIff_of_test {ptr len : Nat} {s : SysState} {function : String} {o : Outcome SyscallResult}
    {P : Prop} (hptr : ptr ≠ 0) (hle : len ≤ isizeMax) (h : len ≠ 0 → RejectsIff o P) :
    RejectsIff (if ptr = 0 ∨ len = 0 then .ret (.error 1) s else withSlice function len o) (len = 0 ∨ P) := by
  by_cases hlen : len = 0
  · rw [if_pos (.inr hlen)]
    exact ⟨fun _ => ⟨s, rfl⟩, fun h => absurd (.inl hlen) h⟩
  · rw [if_neg (not_or.mpr ⟨hptr, hlen⟩), withSlice_of_le hle]
    exact ⟨fun hP => (h hlen).1 (hP.resolve_left hlen), fun hP => (h hlen).2 fun hp => hP (.inr hp)⟩

theorem rejectsIff_ofOption {r : Option Nat} {s : SysState} {P : Prop} (hnone : P → r = none)
    (hsome : ¬ P → ∃ n, r = some n ∧ n < 2 ^ 63) : RejectsIff (.ret (ofOption r) s) P := by
  refine ⟨fun h => ?_, fun h => ?_⟩
  · rw [hnone h]
    exact ⟨s, rfl⟩
  · obtain ⟨n, hn, hlt⟩ := hsome h
    rw [hn]
    exact accepts_success hlt

theorem rejectsIff_ofBool (b : Bool) (s : SysState) : RejectsIff (.ret (ofBool b) s) (b = false) := by
  cases b with
  | false => exact ⟨fun _ => ⟨s, rfl⟩, fun h => absurd rfl h⟩
  | true => exact ⟨fun h => absurd h (by decide), fun _ => accepts_success (by decide)⟩

theorem handlePath_rejects (op : Vfs → String → Bool × Vfs) {args : SyscallArgs} (s : SysState)
    (h0 : args.arg0 ≠ 0) (hle : args.arg1 ≤ isizeMax) :
    RejectsIff (handlePath op args s)
      (args.arg1 = 0 ∨ (op s.vfs (pathAt s.mem args.arg0 args.arg1)).1 = false) :=
  rejectsIff_of_test h0 hle fun _ => rejectsIff_ofBool _ _

theorem handleStat_rejects (regs : SyscallRegs) (path st : Slice) (s : SysState) :
    RejectsIff (handleStat ((Call.stat path st).args regs) s) ((Call.stat path st).rejected s) := by
  unfold Call.rejected Call.args handleStat
  by_cases hlen : path.len = 0
  · simp only [hlen, or_true, true_or, ↓reduceIte]
    exact ⟨fun _ => ⟨s, rfl⟩, fun h => absurd trivial h⟩
  · simp only [path.ptr_ne, st.ptr_ne, hlen, or_self, ↓reduceIte, false_or, SysState.touch,
      Vfs.stat, withSlice_of_le path.len_le]
    cases s.vfs.lookup (pathAt s.mem path.ptr path.len) with
    | none => exact ⟨fun _ => ⟨_, rfl⟩, fun h => absurd rfl h⟩
    | some entry =>
      refine ⟨fun h => absurd h (by simp), fun _ => ?_⟩
      dsimp only [Option.map_some]
      split
      · rintro result s' ⟨⟩
      · exact accepts_success (by decide)

theorem handleWriteFile_rejects (regs : SyscallRegs) (fd : Nat) (buf : Slice) (s : SysState) :
    RejectsIff (handleWriteFile ((Call.write fd buf).args regs) s) ((Call.write fd buf).rejected s) := by
  refine rejectsIff_of_test buf.ptr_ne buf.len_le fun _ => ?_
  obtain ⟨hnone, hsome⟩ := write_ret s.vfs s.room s.term fd (bytesAt s.mem buf.ptr buf.len)
  simp only [SysState.touch, Call.args]
  refine ⟨fun h => ?_, fun h => ?_⟩
  · rw [hnone h]
    exact ⟨_, rfl⟩
  · have hret := hsome h
    cases hw : s.vfs.write s.room s.term fd (bytesAt s.mem buf.ptr buf.len) with
    | error p =>
      rintro result s' ⟨⟩
    | ok r =>
      rw [length_bytesAt] at hret
      simp only [hret r hw]
      exact accepts_success (len_lt buf)

/-- Every handler behind a wrapper answers `Error(1)` on the calls that `rejected` describes, and
only on these. -/
theorem handleSyscall_rejects (others : SysState → SysState) (regs : SyscallRegs) (c : Call)
    (s : SysState) :
    RejectsIff (handleSyscall others c.syscall (c.args regs) s) (c.rejected s) := by
  cases c with
  | read fd buf =>
    obtain ⟨hnone, hsome⟩ := read_ret s.vfs s.term fd (bytesAt s.mem buf.ptr buf.len)
    refine rejectsIff_of_test buf.ptr_ne buf.len_le fun _ => rejectsIff_ofOption hnone fun h => ?_
    obtain ⟨n, hn, hle⟩ := hsome h
    rw [length_bytesAt] at hle
    exact ⟨n, hn, Nat.lt_of_le_of_lt hle (len_lt buf)⟩
  | «open» path =>
    refine rejectsIff_of_test path.ptr_ne path.len_le fun _ => ?_
    rcases VfsLemmas.open_cases s.vfs (pathAt s.mem path.ptr path.len) with
      ⟨hnone, heq⟩ | ⟨j, e, hj, he, heq⟩
    · refine rejectsIff_ofOption (fun _ => congrArg Prod.fst heq) fun h => absurd hnone h
    · refine rejectsIff_ofOption (fun h => ?_) fun _ =>
        ⟨j, congrArg Prod.fst heq, Nat.lt_trans j.isLt (by decide)⟩
      rw [hj, he] at h
      rcases h with h | h <;> cases h
  | ls buf =>
    have hrejects : RejectsIff (handleLs ((Call.ls buf).args regs) s) (buf.len = 0 ∨ False) := by
      refine rejectsIff_of_test buf.ptr_ne buf.len_le fun _ => ⟨False.elim, fun _ => accepts_success ?_⟩
      exact Nat.lt_of_le_of_lt (length_lsLoop _ (Nat.zero_le _)) (len_lt buf)
    rwa [or_false] at hrejects
  | stat path st => exact handleStat_rejects regs path st s
  | seek fd offset =>
    have hrejects := rejectsIff_ofBool (s.vfs.seek fd offset).1 { s with vfs := (s.vfs.seek fd offset).2 }
    rw [seek_ret, Option.isSome_eq_false_iff, Option.isNone_iff_eq_none, ← seek_ret s.vfs fd offset]
      at hrejects
    exact hrejects
  | write fd buf => exact handleWriteFile_rejects regs fd buf s
  | mkdir path =>
    have hptr : ((Call.mkdir path).args regs).arg0 ≠ 0 := path.ptr_ne
    have h := handlePath_rejects Vfs.mkdir s hptr path.len_le
    simp only [mkdir_ret, Option.isNone_eq_false_iff, Option.isSome_iff_ne_none] at h
    exact h
  | unlink path =>
    have hptr : ((Call.unlink path).args regs).arg0 ≠ 0 := path.ptr_ne
    have h := handlePath_rejects Vfs.unlink s hptr path.len_le
    simp only [unlink_ret, Option.isSome_eq_false_iff, Option.isNone_iff_eq_none] at h
    exact h

/-! ## What the wrappers make of it -/

theorem run_of_handle {others : SysState → SysState} {regs : SyscallRegs} {c : Call}
    {s s' : SysState} {result : SyscallResult}
    (h : handleSyscall others c.syscall (c.args regs) (c.entry s) = .ret result s') :
    c.run others regs s = .ret (c.decode (encodeResult result) s') s' := by
  have hdispatch : ∀ {call : Syscall} {args : SyscallArgs} {s s' : SysState},
      handleSyscall others call args s = .ret result s' →
      syscallDispatch others ⟨call.id, args.arg0, args.arg1, args.arg2, args.arg3⟩ s =
        .ret (encodeResult result) s' := by
    intro call args s s' h
    have hid : call.id % 2 ^ 16 = call.id := by cases call <;> rfl
    simp only [syscallDispatch, hid, fromU16_id, h, Outcome.map]
  have := hdispatch h
  cases c <;> simp only [Call.run, Call.decode, Libturnix.read, Libturnix.open, Libturnix.ls,
    Libturnix.stat, Libturnix.seek, Libturnix.write, Libturnix.mkdir, Libturnix.unlink, syscall2,
    syscall3] <;> erw [this] <;> rfl

theorem decode_failed (c : Call) (res : Nat) (s : SysState) :
    (c.decode res s).failed = true ↔ asI64 res < 0 := by
  by_cases h : asI64 res < 0 <;>
    cases c <;> simp [Call.decode, Report.failed, decodeValue, decodeFlag, h]

theorem decode_counts {c : Call} (h : c.counts = true) (res : Nat) (s : SysState) :
    c.decode res s = .value (decodeValue res) := by
  cases c <;> first | rfl | cases h

theorem asI64_nonneg {v : Nat} (hv : v < 2 ^ 63) : ¬ asI64 v < 0 := by
  rw [asI64_neg_iff (by omega)]
  omega

end LibturnixLemmas

open LibturnixLemmas

/-- A wrapper reports what its handler answered exactly on the calls that the handler does not
reject. On a rejected call the handler's error code 1 reaches the wrapper as the value 1. -/
theorem wrapper_decodes_iff (others : SysState → SysState) (regs : SyscallRegs) (c : Call)
    (s : SysState) : c.Decodes others regs s ↔ ¬ c.rejected (c.entry s) := by
  obtain ⟨hrejects, haccepts⟩ := handleSyscall_rejects others regs c (c.entry s)
  constructor
  · intro hdec hrej
    obtain ⟨s', hret⟩ := hrejects hrej
    obtain ⟨report, hrun, hfailed, -⟩ := hdec _ _ hret
    rw [run_of_handle hret] at hrun
    cases hrun
    have hneg := (decode_failed c _ _).mp (hfailed.mpr ⟨1, rfl⟩)
    exact absurd hneg (by decide)
  · intro hrej result s' hret
    obtain ⟨v, rfl, hv⟩ := haccepts hrej _ _ hret
    refine ⟨_, run_of_handle hret, ?_, ?_⟩
    · rw [decode_failed]
      constructor
      · intro h
        exact absurd h (asI64_nonneg hv)
      · rintro ⟨err, ⟨⟩⟩
    · rintro v' ⟨⟩ - hcounts
      rw [decode_counts hcounts]
      show Report.value (decodeValue v) = .value (some v)
      rw [decodeValue, if_neg (asI64_nonneg hv)]

/-- A machine on which nothing has happened yet. -/
def emptyState : SysState :=
  ⟨Vfs.new, ⟨⟨"", []⟩, none⟩, ⟨Scheduler.new, 0, ⟨0, 0, 0⟩⟩, fun _ => 0, ample, [], []⟩

/-- Opening a file that does not exist: the handler fails and the wrapper returns descriptor 1. -/
theorem open_missing_returns_one :
    ¬ Call.Decodes id ⟨0, 0, 0, 0, 0⟩ (.open ⟨4096, 1, by decide, by decide⟩) emptyState ∧
    Call.run id ⟨0, 0, 0, 0, 0⟩ emptyState (.open ⟨4096, 1, by decide, by decide⟩) =
      .ret (.value (some 1)) (emptyState.touch [.text 4096 1]) := by
  have hret : handleSyscall id .open ⟨4096, 1, 0, 0⟩ emptyState =
      .ret (.error 1) (emptyState.touch [.text 4096 1]) := rfl
  have hrun : Call.run id ⟨0, 0, 0, 0, 0⟩ emptyState (.open ⟨4096, 1, by decide, by decide⟩) =
      .ret (.value (some 1)) (emptyState.touch [.text 4096 1]) := rfl
  refine ⟨fun hdec => ?_, hrun⟩
  obtain ⟨report, hrun', hfailed, -⟩ := hdec _ _ hret
  rw [hrun] at hrun'
  cases hrun'
  exact absurd (hfailed.mpr ⟨1, rfl⟩) (by decide)

end Libturnix

end Turnix
