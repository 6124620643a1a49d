import Turnix.Elf
import Turnix.Scheduler
import Turnix.Vfs

/-!
# System calls, the kernel's side

`shared/abi/src/syscall.rs`, `syscall/handler.rs` and `syscall_dispatch` of `syscall/mod.rs`. Memory
is the byte memory of the address space the call runs in. The bytes a handler reads or writes
through a pointer of its caller are recorded in `touched`. To make a slice of a pointer touches nothing,
but a `dev` build checks its length. Of what is allocated only the contents of files are modelled: `room`
says how far the heap lets them grow.
-/

namespace Turnix

open Lib

/-- `Syscall`. -/
inductive Syscall
  | write
  | exit
  | read
  | open
  | close
  | exec
  | fork
  | wait
  | yielder
  | uptime
  | ls
  | stat
  | getPid
  | seek
  | writeFile
  | getUid
  | getGid
  | brk
  | mkdir
  | unlink
deriving DecidableEq, Repr

/-- `Syscall::id`. -/
def Syscall.id : Syscall → Nat
  | write => 1
  | exit => 2
  | read => 3
  | .open => 4
  | close => 5
  | exec => 6
  | fork => 7
  | wait => 8
  | yielder => 9
  | uptime => 10
  | ls => 11
  | stat => 12
  | getPid => 13
  | seek => 14
  | writeFile => 15
  | getUid => 16
  | getGid => 17
  | brk => 18
  | mkdir => 19
  | unlink => 20

/-- `Syscall::from_u16`. -/
def Syscall.fromU16 : Nat → Option Syscall
  | 1 => some write
  | 2 => some exit
  | 3 => some read
  | 4 => some .open
  | 5 => some close
  | 6 => some exec
  | 7 => some fork
  | 8 => some wait
  | 9 => some yielder
  | 10 => some uptime
  | 11 => some ls
  | 12 => some stat
  | 13 => some getPid
  | 14 => some seek
  | 15 => some writeFile
  | 16 => some getUid
  | 17 => some getGid
  | 18 => some brk
  | 19 => some mkdir
  | 20 => some unlink
  | _ => none

theorem fromU16_id (call : Syscall) : Syscall.fromU16 call.id = some call := by
  cases call <;> rfl

/-- `SyscallArgs`. -/
structure SyscallArgs where
  arg0 : Nat
  arg1 : Nat
  arg2 : Nat
  arg3 : Nat
deriving DecidableEq, Repr

/-- `Stat` of the ABI. -/
structure Stat where
  size : Nat
  fileType : Nat
deriving DecidableEq, Repr

/-- `FileStat::to_abi`. -/
def FileStat.toAbi (st : FileStat) : Stat :=
  ⟨st.size, match st.fileType with
    | .regular => 0
    | .directory => 1
    | .device => 2
    | .pipe => 3⟩

/-- `SyscallResult`. -/
inductive SyscallResult
  | success (val : Nat)
  | error (err : Int)
deriving DecidableEq, Repr

/-- Bytes of the caller that a handler reads or writes: `len` bytes from `ptr` on, or as many of them as
`core::str::from_utf8` looks at. -/
inductive Access
  | range (ptr len : Nat)
  | text (ptr len : Nat)
deriving DecidableEq, Repr

/-- The state a handler works on. -/
structure SysState where
  vfs : Vfs
  term : Terminal
  kernel : Kernel
  mem : Nat → UInt8
  room : Nat → Bool
  serial : List String
  touched : List Access

/-- How a call ends: it returns, the kernel panics, or the task has exited and is not resumed. -/
inductive Outcome (α : Type)
  | ret (val : α) (s : SysState)
  | panic (p : Panic)
  | exited (s : SysState)

def Outcome.map {α β : Type} (f : α → β) : Outcome α → Outcome β
  | ret val s => ret (f val) s
  | panic p => panic p
  | exited s => exited s

/-- The bytes `ptr .. ptr + len`. -/
def bytesAt (mem : Nat → UInt8) (ptr len : Nat) : List UInt8 :=
  (List.range len).map fun i => mem (ptr + i)

/-- Store `bytes` from `ptr` on. -/
def storeBytes (mem : Nat → UInt8) (ptr : Nat) (bytes : List UInt8) : Nat → UInt8 := fun a =>
  if ptr ≤ a then bytes.getD (a - ptr) (mem a) else mem a

/-- Bytes of the caller's memory are read or written. -/
def SysState.touch (s : SysState) (log : List Access) : SysState := { s with touched := s.touched ++ log }

/-- `core::slice::from_raw_parts` or `from_raw_parts_mut` for `len` bytes at a pointer that is not null, and what is
done with the slice. -/
def withSlice (function : String) (len : Nat) (rest : Outcome SyscallResult) : Outcome SyscallResult :=
  if len ≤ isizeMax then rest
  else .panic ⟨s!"unsafe precondition(s) violated: slice::{function} requires the pointer to be aligned and " ++
    "non-null, and the total size of the slice not to exceed `isize::MAX`"⟩

theorem withSlice_of_le {function : String} {len : Nat} {rest : Outcome SyscallResult} (h : len ≤ isizeMax) :
    withSlice function len rest = rest := if_pos h

/-- `core::str::from_utf8(from_raw_parts(ptr, len)).unwrap_or("")`. -/
def pathAt (mem : Nat → UInt8) (ptr len : Nat) : String := (fromUtf8 (bytesAt mem ptr len)).getD ""

/-- The last lines of `handle_mkdir`, `handle_unlink` and `handle_seek`. -/
def ofBool (ok : Bool) : SyscallResult := if ok then .success 0 else .error 1

/-- The last lines of `handle_read`, `handle_write_file` and `handle_open`. -/
def ofOption : Option Nat → SyscallResult
  | some val => .success val
  | none => .error 1

/-- The common frame of the handlers that change the VFS under a path: `handle_mkdir` and
`handle_unlink`. -/
def handlePath (op : Vfs → String → Bool × Vfs) (args : SyscallArgs) (s : SysState) :
    Outcome SyscallResult :=
  let pathPtr := args.arg0
  let pathLen := args.arg1
  if pathPtr = 0 ∨ pathLen = 0 then .ret (.error 1) s
  else withSlice "from_raw_parts" pathLen <|
    let s := s.touch [.text pathPtr pathLen]
    let r := op s.vfs (pathAt s.mem pathPtr pathLen)
    .ret (ofBool r.1) { s with vfs := r.2 }

/-- `handle_mkdir`. -/
def handleMkdir : SyscallArgs → SysState → Outcome SyscallResult := handlePath Vfs.mkdir

/-- `handle_unlink`. -/
def handleUnlink : SyscallArgs → SysState → Outcome SyscallResult := handlePath Vfs.unlink

/-- What `Vfs::write` reads of its buffer: for the terminal it looks for a string, for an entry with data it copies the
bytes. -/
def Vfs.bufferReads (v : Vfs) (fdIndex bufPtr bufLen : Nat) : List Access :=
  match v.descriptor fdIndex with
  | none => []
  | some fd =>
    if fd.name = "tty" then [.text bufPtr bufLen]
    else if ((v.lookup fd.name).bind VfsEntry.data).isSome then [.range bufPtr bufLen]
    else []

/-- `handle_write_file`. -/
def handleWriteFile (args : SyscallArgs) (s : SysState) : Outcome SyscallResult :=
  let fd := args.arg0
  let bufPtr := args.arg1
  let bufLen := args.arg2
  if bufPtr = 0 ∨ bufLen = 0 then .ret (.error 1) s
  else withSlice "from_raw_parts" bufLen <|
    let s := s.touch (s.vfs.bufferReads fd bufPtr bufLen)
    match s.vfs.write s.room s.term fd (bytesAt s.mem bufPtr bufLen) with
    | .ok r => .ret (ofOption r.ret) { s with vfs := r.vfs, term := r.term }
    | .error p => .panic p

/-- `handle_seek`. -/
def handleSeek (args : SyscallArgs) (s : SysState) : Outcome SyscallResult :=
  let r := s.vfs.seek args.arg0 args.arg1
  .ret (ofBool r.1) { s with vfs := r.2 }

/-- `handle_getpid`. -/
def handleGetpid (s : SysState) : Outcome SyscallResult :=
  .ret (ofOption (getCurrentTaskId s.kernel)) s

/-- `handle_uptime`. -/
def handleUptime (s : SysState) : Outcome SyscallResult :=
  .ret (.success (getUptimeTicks s.kernel)) s

/-- `handle_write`: a slice that is not UTF-8 prints nothing and still counts as written. -/
def handleWrite (args : SyscallArgs) (s : SysState) : Outcome SyscallResult :=
  let addr := args.arg0
  let len := args.arg1
  if addr = 0 ∨ len = 0 then .ret (.error 1) s
  else withSlice "from_raw_parts" len <|
    let s := s.touch [.text addr len]
    .ret (.success len) { s with serial := s.serial ++ [pathAt s.mem addr len] }

/-- `handle_read`. -/
def handleRead (args : SyscallArgs) (s : SysState) : Outcome SyscallResult :=
  let fd := args.arg0
  let bufPtr := args.arg1
  let bufLen := args.arg2
  if bufPtr = 0 ∨ bufLen = 0 then .ret (.error 1) s
  else withSlice "from_raw_parts_mut" bufLen <|
    let r := s.vfs.read s.term fd (bytesAt s.mem bufPtr bufLen)
    let s := s.touch [.range bufPtr (r.ret.getD 0)]
    .ret (ofOption r.ret)
      { s with vfs := r.vfs, term := r.term, mem := storeBytes s.mem bufPtr r.buf }

/-- `exit_current_task`, up to the yield that leaves the task for good. -/
def exitCurrentTask (s : SysState) : SysState :=
  { s with
    kernel := exitMark s.kernel
    serial := s.serial ++ match s.kernel.sched.currentTask with
      | some task => [s!"[scheduler] Task {task.id} exited/terminated.\n"]
      | none => [] }

/-- `handle_exit`. -/
def handleExit (args : SyscallArgs) (s : SysState) : Outcome SyscallResult :=
  let code := asI32 args.arg0
  .exited (exitCurrentTask { s with serial := s.serial ++ [s!"\n[syscall] exit code: {code}\n"] })

/-- `handle_open`. -/
def handleOpen (args : SyscallArgs) (s : SysState) : Outcome SyscallResult :=
  let pathPtr := args.arg0
  let pathLen := args.arg1
  if pathPtr = 0 ∨ pathLen = 0 then .ret (.error 1) s
  else withSlice "from_raw_parts" pathLen <|
    let s := s.touch [.text pathPtr pathLen]
    let r := s.vfs.open (pathAt s.mem pathPtr pathLen)
    .ret (ofOption r.1) { s with vfs := r.2 }

/-- `handle_close` does not look at what `close` returns. -/
def handleClose (args : SyscallArgs) (s : SysState) : Outcome SyscallResult :=
  .ret (.success 0) { s with vfs := (s.vfs.close args.arg0).2 }

/-- The loop of `handle_ls`: the bytes it has put into the buffer when it ends. -/
def lsLoop (bufLen : Nat) : List String → List UInt8 → List UInt8
  | [], out => out
  | name :: files, out =>
    let nameBytes := asBytes name
    if out.length + nameBytes.length + 1 > bufLen then out
    else lsLoop bufLen files (out ++ nameBytes ++ [0x0A])

/-- `handle_ls`. -/
def handleLs (args : SyscallArgs) (s : SysState) : Outcome SyscallResult :=
  let bufPtr := args.arg0
  let bufLen := args.arg1
  if bufPtr = 0 ∨ bufLen = 0 then .ret (.error 1) s
  else withSlice "from_raw_parts_mut" bufLen <|
    let out := lsLoop bufLen s.vfs.listDir []
    let s := s.touch [.range bufPtr out.length]
    .ret (.success out.length) { s with mem := storeBytes s.mem bufPtr out }

/-- `{:#x}`. -/
def hex (n : Nat) : String := "0x" ++ String.ofList (Nat.toDigits 16 n)

/-- `handle_stat`. The store to `*stat_ptr` is checked for its alignment. -/
def handleStat (args : SyscallArgs) (s : SysState) : Outcome SyscallResult :=
  let pathPtr := args.arg0
  let pathLen := args.arg1
  let statPtr := args.arg2
  if pathPtr = 0 ∨ pathLen = 0 ∨ statPtr = 0 then .ret (.error 1) s
  else withSlice "from_raw_parts" pathLen <|
    let s := s.touch [.text pathPtr pathLen]
    match s.vfs.stat (pathAt s.mem pathPtr pathLen) with
    | some st =>
      let abi := st.toAbi
      if statPtr % 8 ≠ 0 then
        .panic ⟨s!"misaligned pointer dereference: address must be a multiple of 0x8 but is {hex statPtr}"⟩
      else
        let s := s.touch [.range statPtr 16]
        .ret (.success 0)
          { s with mem := storeBytes s.mem statPtr (toLeBytes 8 abi.size ++ toLeBytes 4 abi.fileType) }
    | none => .ret (.error 1) s

/-- The loop of `handle_exec` over the program headers: segments counted, messages printed. -/
def execLoop (data : List UInt8) (header : ElfHeader) : List Nat → Nat × List String
  | [] => (0, [])
  | i :: rest =>
    let (n, msgs) := execLoop data header rest
    match parseProgramHeader data header i with
    | .ok (some _) => (n + 1, msgs)
    | .ok none => (n, msgs)
    | .error e => (n, s!"exec: program header error: {e.debug}\n" :: msgs)

/-- The parts of the image that `handle_exec` reads. -/
def execReads (data : List UInt8) : List (Nat × Nat) :=
  headerReads data ++ match parseHeader data with
    | .error _ => []
    | .ok header => (List.range header.programHeaderCount).flatMap (programHeaderReads data header)

/-- `handle_exec`: it counts the segments and returns the entry point; nothing is loaded. -/
def handleExec (args : SyscallArgs) (s : SysState) : Outcome SyscallResult :=
  let ptr := args.arg0
  let size := args.arg1
  if ptr = 0 ∨ size = 0 then
    .ret (.error 1) { s with serial := s.serial ++ ["exec: null pointer or zero size\n"] }
  else withSlice "from_raw_parts" size <|
    let data := bytesAt s.mem ptr size
    let s := s.touch ((execReads data).map fun r => .range (ptr + r.1) r.2)
    match parseHeader data with
    | .error e =>
      .ret (.error 1) { s with serial := s.serial ++ [s!"exec: invalid ELF header: {e.debug}\n"] }
    | .ok header =>
      let (n, msgs) := execLoop data header (List.range header.programHeaderCount)
      .ret (.success header.entry) { s with serial := s.serial ++ msgs ++
        [s!"exec: loaded {n} segments, entry: {hex header.entry}\n"] }

/-- `handle_fork`. -/
def handleFork (s : SysState) : Outcome SyscallResult :=
  .ret (.error 1)
    { s with serial := s.serial ++ ["fork: simplified version - not fully implemented\n"] }

/-- `handle_wait`. -/
def handleWait (s : SysState) : Outcome SyscallResult := .ret (.error 1) s

/-- `handle_brk`. -/
def handleBrk (s : SysState) : Outcome SyscallResult := .ret (.error 1) s

/-- `handle_getuid`. -/
def handleGetuid (s : SysState) : Outcome SyscallResult := .ret (.success 0) s

/-- `handle_getgid`. -/
def handleGetgid (s : SysState) : Outcome SyscallResult := .ret (.success 0) s

/-- `handle_yielder`; `others` is what the other tasks do before this one is on the CPU again. -/
def handleYielder (others : SysState → SysState) (args : SyscallArgs) (s : SysState) :
    Outcome SyscallResult :=
  .ret (.success 0) (if args.arg0 ≠ 0 then others s else s)

/-- `handle_syscall`. -/
def handleSyscall (others : SysState → SysState) (call : Syscall) (args : SyscallArgs)
    (s : SysState) : Outcome SyscallResult :=
  match call with
  | .write => handleWrite args s
  | .read => handleRead args s
  | .exit => handleExit args s
  | .open => handleOpen args s
  | .close => handleClose args s
  | .exec => handleExec args s
  | .fork => handleFork s
  | .wait => handleWait s
  | .yielder => handleYielder others args s
  | .uptime => handleUptime s
  | .ls => handleLs args s
  | .stat => handleStat args s
  | .getPid => handleGetpid s
  | .seek => handleSeek args s
  | .writeFile => handleWriteFile args s
  | .getUid => handleGetuid s
  | .getGid => handleGetgid s
  | .brk => handleBrk s
  | .mkdir => handleMkdir args s
  | .unlink => handleUnlink args s

/-- The registers of `SyscallFrame` that `syscall_dispatch` reads. -/
structure SyscallRegs where
  rax : Nat
  rdi : Nat
  rsi : Nat
  rdx : Nat
  r10 : Nat
deriving DecidableEq, Repr

/-- The value `syscall_dispatch` puts in `rax` for a result. -/
def encodeResult : SyscallResult → Nat
  | .success val => val
  | .error err => i64AsU64 err

/-- `syscall_dispatch`. -/
def syscallDispatch (others : SysState → SysState) (frame : SyscallRegs) (s : SysState) :
    Outcome Nat :=
  match Syscall.fromU16 (frame.rax % 2 ^ 16) with
  | some call =>
    (handleSyscall others call ⟨frame.rdi, frame.rsi, frame.rdx, frame.r10⟩ s).map encodeResult
  | none => .ret 0xFFFFFFFFFFFFFFFF s

end Turnix
