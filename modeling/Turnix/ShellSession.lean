import Turnix.ConsolePicture
import Turnix.Shell
import Turnix.TtyInput

/-!
# A session with the shell

`userland/shell/src/main.rs`, on top of the system calls. The program opens the terminal, prints a greeting and then
goes round a loop: it prints a prompt, reads a line and answers. `read` does not wait. If no line is there then the
program goes round again, so it prints prompts as long as nothing is typed.

A session is any interleaving of the program's calls with key strokes and with what the other tasks do to the rest of
the system; they do not use the terminal, do not close the shell's descriptor and do not change the entries of the
VFS. `shell_session`: no call of the program panics; the lines reach the shell in the order in which they were
completed, each one once; and what the program has asked the terminal to write is the greeting and then, for every
line that it has taken, the answer to that line and a new prompt.

The terminal of a session records what it is asked for. Drawing is a step of its own: a console that fits its
framebuffer draws what was recorded up to any point, and shows it (`Drawable`). Whether the framebuffer is mapped
while the shell runs is not part of this; it is the matter of `ConsoleSpace`.
-/

namespace Turnix.Shell

open Lib

/-! ## Commands -/

/-- `char::is_whitespace`: the characters with the property `White_Space`. -/
def isWhitespace (c : Char) : Bool :=
  (0x09 ≤ c.val ∧ c.val ≤ 0x0D) ∨ c.val = 0x20 ∨ c.val = 0x85 ∨ c.val = 0xA0 ∨ c.val = 0x1680 ∨
    (0x2000 ≤ c.val ∧ c.val ≤ 0x200A) ∨ c.val = 0x2028 ∨ c.val = 0x2029 ∨ c.val = 0x202F ∨ c.val = 0x205F ∨
    c.val = 0x3000

/-- `str::trim`. -/
def trim (s : String) : String :=
  String.ofList ((s.toList.dropWhile isWhitespace).reverse.dropWhile isWhitespace).reverse

/-- What the program does next. -/
inductive Act
  /-- `tty_print(s)` -/
  | print (s : String)
  /-- `print_u64(getpid(), ..)` -/
  | printPid
  /-- `print_u64(uptime(), ..)` -/
  | printUptime
  /-- `ls(&mut buf)`, and to print what it has put there -/
  | list
  /-- `read(tty_fd, &mut line_buf)`, and to obey -/
  | read
  /-- `exit(0)` -/
  | exit
deriving DecidableEq, Repr

/-- What `handle_command` does. -/
def handleCommand (cmd : String) : List Act :=
  if cmd = "help" then [.print "Available: help, hello, ls, uptime, exit\n"]
  else if cmd = "hello" then [.print "Hello from the clean Turnix shell!\n"]
  else if cmd = "ls" then [.list]
  else if cmd = "uptime" then [.print "Uptime ticks: ", .printUptime, .print "\n"]
  else if cmd = "exit" then [.print "Goodbye!\n", .exit]
  else [.print "Unknown command: ", .print cmd, .print "\n"]

/-- The loop of `_start`, up to the point where it knows what was read. -/
def round : List Act := [.print "> ", .read]

/-- `_start`, behind `open`. -/
def greeting : List Act :=
  [.print "Turnix Interactive Shell (Phase 6)\n", .print "System PID: ", .printPid,
    .print "\nType 'help' for commands.\n\n"]

/-! ## Calls -/

/-- Where the program has its data: the text that it prints, `line_buf`, and `buf` of the listing. -/
structure Places where
  text : Nat
  lineBuf : Nat
  buf : Nat
  text_ne : text ≠ 0
  lineBuf_ne : lineBuf ≠ 0
  buf_ne : buf ≠ 0

/-- The buffers are no larger than a slice may be. -/
theorem buffers_fit : 3 ≤ isizeMax ∧ 256 ≤ isizeMax ∧ 1024 ≤ isizeMax := by decide

section Calls

variable (p : Places) (regs : SyscallRegs)

/-- The system with a text in the memory of the program. -/
def withText (text : List UInt8) (sys : SysState) : SysState :=
  { sys with mem := storeBytes sys.mem p.text text }

/-- `tty_print`; what `write` returns is not looked at. -/
def ttyPrint (fd : Nat) (s : String) (sys : SysState) : Option SysState :=
  if h : (asBytes s).length ≤ isizeMax then
    match Libturnix.write id regs fd ⟨p.text, (asBytes s).length, p.text_ne, h⟩ (withText p (asBytes s) sys) with
    | .ret _ sys => some sys
    | _ => none
  else none

/-- `open("tty").expect(..)`: the descriptor. -/
def openTty (sys : SysState) : Option (Nat × SysState) :=
  match Libturnix.open id regs ⟨p.text, 3, p.text_ne, buffers_fit.1⟩ (withText p (asBytes "tty") sys) with
  | .ret (some fd) sys => some (fd, sys)
  | _ => none

/-- `print_u64` of what a call has returned. -/
def printNumber : Outcome Nat → Option (List Act × SysState × Nat)
  | .ret n sys => (printU64 n).toOption.map fun texts => (texts.map .print, sys, n)
  | _ => none

/-- The command `ls`. -/
def list (sys : SysState) : Option (List Act × SysState) :=
  match Libturnix.ls id regs ⟨p.buf, 1024, p.buf_ne, buffers_fit.2.2⟩
      { sys with mem := storeBytes sys.mem p.buf (List.replicate 1024 0) } with
  | .ret (some len) sys =>
    (slice (bytesAt sys.mem p.buf 1024) 0 len).toOption.map fun bytes =>
      ([.print ((fromUtf8 bytes).getD "")], sys)
  | .ret none sys => some ([], sys)
  | _ => none

/-- The line that a `read` has left in `line_buf`. -/
def lineOf (len : Nat) (sys : SysState) : Option String :=
  (slice (bytesAt sys.mem p.lineBuf 256) 0 len).toOption.map fun bytes => trim ((fromUtf8 bytes).getD "")

/-- The rest of the loop, behind a `read`: what the program does with the line. -/
def obey (line : String) : List Act := if line ≠ "" then handleCommand line else []

/-- `read(tty_fd, &mut line_buf)` and the rest of the loop. -/
def readLine (fd : Nat) (sys : SysState) : Option (List Act × SysState) :=
  match Libturnix.read id regs fd ⟨p.lineBuf, 256, p.lineBuf_ne, buffers_fit.2.1⟩ sys with
  | .ret (some len) sys =>
    if len > 0 then (lineOf p len sys).map fun line => (obey line, sys) else some ([], sys)
  | .ret none sys => some ([], sys)
  | _ => none

end Calls

/-! ## Sessions -/

/-- A turn of the loop: the line that was taken out of the queue, if there was one, and what `uptime` returned, if
it was called. -/
structure Turn where
  line : Option String
  uptime : Nat
deriving DecidableEq, Repr

/-- The system and the program. `pid`, `turns` and `completed` are bookkeeping: what `getpid` returned, the turns of
the loop and the lines that were completed on the keyboard. -/
structure Session where
  sys : SysState
  ttyFd : Nat
  todo : List Act
  exited : Bool
  pid : Nat
  turns : List Turn
  completed : List String

/-- `open("tty")`, and then the greeting and the loop. -/
def Session.start (p : Places) (regs : SyscallRegs) (sys : SysState) : Option Session :=
  (openTty p regs sys).map fun r => ⟨r.2, r.1, greeting ++ round, false, 0, [], []⟩

/-- The last turn gets the value of `uptime`. -/
def noteUptime (n : Nat) (turns : List Turn) : List Turn :=
  match turns.getLast? with
  | some turn => turns.dropLast ++ [{ turn with uptime := n }]
  | none => []

/-- The program does what it has to do next. -/
def act (p : Places) (regs : SyscallRegs) (s : Session) : Act → List Act → Option Session
  | .print text, rest =>
    (ttyPrint p regs s.ttyFd text s.sys).map fun sys => { s with sys := sys, todo := rest }
  | .printPid, rest =>
    (printNumber (Libturnix.getpid id regs s.sys)).map fun r =>
      { s with sys := r.2.1, todo := r.1 ++ rest, pid := r.2.2 }
  | .printUptime, rest =>
    (printNumber (Libturnix.uptime id regs s.sys)).map fun r =>
      { s with sys := r.2.1, todo := r.1 ++ rest, turns := noteUptime r.2.2 s.turns }
  | .list, rest => (list p regs s.sys).map fun r => { s with sys := r.2, todo := r.1 ++ rest }
  | .read, _ =>
    (readLine p regs s.ttyFd s.sys).map fun r => { s with
      sys := r.2
      todo := r.1 ++ round
      turns := s.turns ++ [⟨s.sys.term.tty.inputQueue.head?, 0⟩] }
  | .exit, rest =>
    match Libturnix.exit id regs 0 s.sys with
    | .exited sys => some { s with sys := sys, todo := rest, exited := true }
    | _ => none

/-- The command in a line: what the buffer of the shell has room for, without the blanks around it. -/
def commandIn (line : String) : String := trim ((fromUtf8 ((asBytes line).take 256)).getD "")

/-- The text of a listing: as many names as fit into the buffer. -/
def listingText (files : List String) : String := (fromUtf8 (lsLoop 1024 files [])).getD ""

/-- The texts of an action. -/
def Act.texts (files : List String) (pid uptime : Nat) : Act → List String
  | print s => [s]
  | printPid => [toString pid]
  | printUptime => [toString uptime]
  | list => [listingText files]
  | read | exit => []

/-- The answer to a line. -/
def answer (files : List String) (turn : Turn) : List String :=
  match turn.line with
  | some line => (obey (commandIn line)).flatMap (Act.texts files 0 turn.uptime)
  | none => []

/-- What is written to the terminal up to the prompt behind these turns. -/
def dialogue (files : List String) (pid : Nat) (turns : List Turn) : List String :=
  greeting.flatMap (Act.texts files pid 0) ++ ["> "] ++ turns.flatMap fun turn => answer files turn ++ ["> "]

/-- The texts that were written to the terminal, as opposed to the echo. -/
def written (ops : List ConsoleOp) : List String :=
  ops.filterMap fun
    | .writeStr s => some s
    | _ => none

/-- The turn has the command `exit`. -/
def Turn.exits (turn : Turn) : Prop := turn.line.map commandIn = some "exit"

namespace SessionLemmas

open ListingLemmas ShellLemmas Libturnix.LibturnixLemmas

variable {p : Places} {regs : SyscallRegs} {sys : SysState} {fd : Nat} {text : String}

/-! ## The calls -/

/-- The descriptor is one of the terminal. -/
def IsTty (sys : SysState) (fd : Nat) : Prop := (sys.vfs.descriptor fd).map FileDescriptor.name = some "tty"

theorem dispatch_eq (call : Syscall) (a b c d : Nat) (sys : SysState) :
    syscallDispatch id ⟨call.id, a, b, c, d⟩ sys =
      (handleSyscall id call ⟨a, b, c, d⟩ sys).map encodeResult := by
  have hid : call.id % 2 ^ 16 = call.id := by cases call <;> rfl
  simp only [syscallDispatch, hid, fromU16_id]

theorem bytesAt_stored (mem : Nat → UInt8) (ptr : Nat) (bytes : List UInt8) :
    bytesAt (storeBytes mem ptr bytes) ptr bytes.length = bytes := by
  rw [bytesAt_storeBytes (Nat.le_refl _)]
  unfold overwrite
  rw [List.drop_eq_nil_of_le (by rw [length_bytesAt]), List.append_nil]

theorem asBytes_eq_nil_iff : asBytes text = [] ↔ text = "" := by
  constructor
  · intro h
    have htext := fromUtf8_asBytes text
    have hempty := fromUtf8_asBytes ""
    rw [h] at htext
    exact Option.some.inj (htext.symm.trans hempty)
  · rintro rfl
    rfl

/-- `tty_print` writes its text to the terminal; the kernel rejects the empty text. -/
theorem ttyPrint_eq (htty : IsTty sys fd) (hlen : (asBytes text).length ≤ isizeMax) :
    ∃ mem touched, ttyPrint p regs fd text sys = some { sys with
      term := if text = "" then sys.term else sys.term.write text
      mem := mem
      touched := touched } := by
  obtain ⟨d, hd, hname⟩ := Option.map_eq_some_iff.mp htty
  unfold ttyPrint Libturnix.write Libturnix.syscall3
  rw [dif_pos hlen, dispatch_eq]
  by_cases hempty : text = ""
  · subst hempty
    have hzero : (asBytes "").length = 0 := rfl
    rw [if_pos rfl]
    simp only [handleSyscall, handleWriteFile, hzero, or_true, ↓reduceIte, Outcome.map, withText]
    exact ⟨_, _, rfl⟩
  · have hpos : (asBytes text).length ≠ 0 := fun h =>
      hempty (asBytes_eq_nil_iff.mp (List.length_eq_zero_iff.mp h))
    have hbytes := bytesAt_stored sys.mem p.text (asBytes text)
    rw [if_neg hempty]
    simp only [handleSyscall, handleWriteFile, p.text_ne, hpos, or_self, ↓reduceIte, SysState.touch, withText,
      withSlice_of_le hlen, Vfs.write, hbytes, hd, hname, fromUtf8_asBytes, Outcome.map]
    exact ⟨_, _, rfl⟩

theorem openTty_eq {e : VfsEntry} {j : Fin maxOpenFiles} (hentry : sys.vfs.lookup "tty" = some e)
    (hfree : sys.vfs.firstFree = some j) : ∃ mem touched, openTty p regs sys = some (j.val, { sys with
      vfs := sys.vfs.setDescriptor j (some ⟨"tty", e.fileType, 0⟩)
      mem := mem
      touched := touched }) := by
  have hpath : pathAt (storeBytes sys.mem p.text (asBytes "tty")) p.text 3 = "tty" := by
    have hbytes : bytesAt (storeBytes sys.mem p.text (asBytes "tty")) p.text 3 = asBytes "tty" :=
      bytesAt_stored sys.mem p.text (asBytes "tty")
    unfold pathAt
    rw [hbytes, fromUtf8_asBytes]
    rfl
  have hopen : sys.vfs.open "tty" = (some j.val, sys.vfs.setDescriptor j (some ⟨"tty", e.fileType, 0⟩)) := by
    rcases VfsLemmas.open_cases sys.vfs "tty" with ⟨hnone, -⟩ | ⟨j', e', hj', he', heq⟩
    · rw [hentry, hfree] at hnone
      rcases hnone with h | h <;> cases h
    · rw [hfree] at hj'
      rw [hentry] at he'
      cases hj'
      cases he'
      exact heq
  have hsmall : j.val < 2 ^ 63 := Nat.lt_trans j.isLt (by decide)
  unfold openTty Libturnix.open Libturnix.syscall2
  rw [dispatch_eq]
  simp only [handleSyscall, handleOpen, p.text_ne, or_self, ↓reduceIte, withSlice_of_le buffers_fit.1, SysState.touch,
    withText, hpath,
    hopen, ofOption, Outcome.map, encodeResult, Libturnix.decodeValue, asI64_nonneg hsmall,
    OfNat.ofNat_ne_zero]
  exact ⟨_, _, rfl⟩

theorem printNumber_eq {n : Nat} (hn : n < 2 ^ 64) :
    printNumber (.ret n sys) = some ([.print (toString n)], sys, n) := by
  simp only [printNumber, printU64_eq hn, Except.toOption, Option.map_some, List.map_cons, List.map_nil]

theorem getpid_eq : ∃ n, Libturnix.getpid id regs sys = .ret n sys ∧
    ((∀ id, sys.kernel.sched.currentTaskId = some id → id < 2 ^ 64) → n < 2 ^ 64) := by
  unfold Libturnix.getpid Libturnix.syscall0
  rw [dispatch_eq]
  simp only [handleSyscall, handleGetpid, getCurrentTaskId, Outcome.map]
  refine ⟨_, rfl, fun hid => ?_⟩
  cases htask : sys.kernel.sched.currentTaskId with
  | none => decide
  | some task => exact hid task htask

theorem uptime_eq : Libturnix.uptime id regs sys = .ret sys.kernel.uptimeTicks sys := by
  unfold Libturnix.uptime Libturnix.syscall0
  rw [dispatch_eq]
  rfl

theorem exit_eq : ∃ kernel serial, Libturnix.exit id regs 0 sys =
    .exited { sys with kernel := kernel, serial := serial } ∧ kernel.uptimeTicks = sys.kernel.uptimeTicks ∧
      kernel.sched.currentTaskId = sys.kernel.sched.currentTaskId := by
  unfold Libturnix.exit Libturnix.syscall1
  rw [dispatch_eq]
  exact ⟨_, _, rfl, rfl, rfl⟩

/-- The listing fits into its buffer, and it is a text. -/
theorem list_eq : ∃ mem touched, list p regs sys = some ([.print (listingText sys.vfs.listDir)], { sys with
      mem := mem
      touched := touched }) := by
  have hlen : (lsLoop 1024 sys.vfs.listDir []).length ≤ 1024 := length_lsLoop _ (Nat.zero_le _)
  have hsmall : (lsLoop 1024 sys.vfs.listDir []).length < 2 ^ 63 := by omega
  have hbytes : ∀ mem, slice (bytesAt (storeBytes mem p.buf (lsLoop 1024 sys.vfs.listDir [])) p.buf 1024) 0
      (lsLoop 1024 sys.vfs.listDir []).length = .ok (lsLoop 1024 sys.vfs.listDir []) := by
    intro mem
    have hslice := @slice_eq_ok (bytesAt (storeBytes mem p.buf (lsLoop 1024 sys.vfs.listDir [])) p.buf 1024) 0
      (lsLoop 1024 sys.vfs.listDir []).length (by rw [length_bytesAt, Nat.zero_add]; exact hlen)
    rw [Nat.zero_add] at hslice
    rw [hslice, List.drop_zero, bytesAt_storeBytes hlen]
    unfold overwrite
    rw [List.take_left]
  unfold list Libturnix.ls Libturnix.syscall2
  rw [dispatch_eq]
  simp only [handleSyscall, handleLs, p.buf_ne, or_self, ↓reduceIte, withSlice_of_le buffers_fit.2.2, SysState.touch,
    Outcome.map, encodeResult,
    Libturnix.decodeValue, asI64_nonneg hsmall, hbytes, OfNat.ofNat_ne_zero, Except.toOption, Option.map_some]
  exact ⟨_, _, rfl⟩

theorem obey_empty : obey (commandIn "") = [] := by
  have hempty : commandIn "" = "" := by decide +kernel
  rw [hempty]
  exact if_neg fun h => h rfl

/-- What the shell does with what it finds in the queue. -/
def reaction (line : Option String) : List Act :=
  match line with
  | some line => obey (commandIn line)
  | none => []

/-- A `read` takes the next line out of the queue, and the shell obeys. -/
theorem readLine_eq (htty : IsTty sys fd) : ∃ mem touched, readLine p regs fd sys =
    some (reaction sys.term.tty.inputQueue.head?, { sys with
      term := { sys.term with tty := { sys.term.tty with inputQueue := sys.term.tty.inputQueue.tail } }
      mem := mem
      touched := touched }) := by
  have hfiles : Files.isTty ⟨sys.vfs, sys.term⟩ fd = true := decide_eq_true htty
  have hsame : ∀ queue, queue = sys.term.tty.inputQueue →
      ({ sys.term with tty := { sys.term.tty with inputQueue := queue } } : Terminal) = sys.term := by
    rintro queue rfl
    rfl
  unfold readLine Libturnix.read Libturnix.syscall3
  rw [dispatch_eq]
  rcases hq : sys.term.tty.inputQueue with _ | ⟨line, rest⟩
  · have hread := TtyLemmas.read_tty_empty hfiles hq (bytesAt sys.mem p.lineBuf 256)
    dsimp only at hread
    simp only [handleSyscall, handleRead, p.lineBuf_ne, or_self, ↓reduceIte, withSlice_of_le buffers_fit.2.1,
      SysState.touch, Outcome.map,
      hread, ofOption, encodeResult, Libturnix.decodeValue, OfNat.ofNat_ne_zero]
    rw [List.tail_nil, hsame [] hq.symm]
    exact ⟨_, _, rfl⟩
  · have hread := TtyLemmas.read_tty_line hfiles hq (bytesAt sys.mem p.lineBuf 256)
    dsimp only at hread
    rw [length_bytesAt] at hread
    have hsmall : min 256 (asBytes line).length < 2 ^ 63 := by omega
    have htake : (asBytes line).take (min 256 (asBytes line).length) = (asBytes line).take 256 := by
      rw [List.take_eq_take_iff]
      omega
    have hlen : ((asBytes line).take (min 256 (asBytes line).length)).length = min 256 (asBytes line).length := by
      rw [List.length_take]
      omega
    -- the buffer begins with the line
    have hbuf : ∀ mem, slice (bytesAt (storeBytes mem p.lineBuf (overwrite (bytesAt sys.mem p.lineBuf 256)
        ((asBytes line).take (min 256 (asBytes line).length)))) p.lineBuf 256) 0 (min 256 (asBytes line).length) =
          .ok ((asBytes line).take 256) := by
      intro mem
      have hfull : (overwrite (bytesAt sys.mem p.lineBuf 256)
          ((asBytes line).take (min 256 (asBytes line).length))).length = 256 := by
        rw [length_overwrite (by rw [hlen, length_bytesAt]; omega), length_bytesAt]
      have hslice := fun bytes => @slice_eq_ok (bytesAt (storeBytes mem p.lineBuf bytes) p.lineBuf 256) 0
        (min 256 (asBytes line).length) (by rw [length_bytesAt]; omega)
      rw [Nat.zero_add] at hslice
      have hstored := bytesAt_stored mem p.lineBuf (overwrite (bytesAt sys.mem p.lineBuf 256)
        ((asBytes line).take (min 256 (asBytes line).length)))
      rw [hfull] at hstored
      rw [hslice, List.drop_zero, hstored]
      unfold overwrite
      rw [List.take_left' hlen, htake]
    simp only [handleSyscall, handleRead, p.lineBuf_ne, or_self, ↓reduceIte, withSlice_of_le buffers_fit.2.1,
      SysState.touch, Outcome.map,
      hread, ofOption, encodeResult, Libturnix.decodeValue, asI64_nonneg hsmall, OfNat.ofNat_ne_zero]
    by_cases hpos : min 256 (asBytes line).length > 0
    · simp only [hpos, ↓reduceIte, lineOf, hbuf, Except.toOption, Option.map_some]
      exact ⟨_, _, rfl⟩
    · have hempty : line = "" := asBytes_eq_nil_iff.mp (List.length_eq_zero_iff.mp (by omega))
      subst hempty
      simp only [hpos, ↓reduceIte]
      refine ⟨_, _, congrArg some (Prod.ext ?_ rfl)⟩
      exact obey_empty.symm

/-! ## Actions -/

theorem length_trim_le (s : String) : (asBytes (trim s)).length ≤ (asBytes s).length := by
  have hsplit : ∃ before after : List Char, s.toList = before ++ (trim s).toList ++ after := by
    refine ⟨s.toList.takeWhile isWhitespace,
      ((s.toList.dropWhile isWhitespace).reverse.takeWhile isWhitespace).reverse, ?_⟩
    unfold trim
    rw [String.toList_ofList, List.append_assoc, ← List.reverse_append, List.takeWhile_append_dropWhile,
      List.reverse_reverse, List.takeWhile_append_dropWhile]
  obtain ⟨before, after, hsplit⟩ := hsplit
  have hs : s = String.ofList before ++ trim s ++ String.ofList after := by
    rw [← String.toList_inj, String.toList_append, String.toList_append, String.toList_ofList,
      String.toList_ofList]
    exact hsplit
  have hlen := congrArg (fun s => (asBytes s).length) hs
  rw [asBytes_append, asBytes_append, List.length_append, List.length_append] at hlen
  omega

theorem length_commandIn_le (line : String) : (asBytes (commandIn line)).length ≤ 256 := by
  refine (length_trim_le _).trans ?_
  cases htext : fromUtf8 ((asBytes line).take 256) with
  | none => exact Nat.zero_le _
  | some text =>
    rw [Option.getD_some, asBytes_of_fromUtf8 htext]
    exact List.length_take_le _ _

/-- The actions of a command, as far as the loop depends on them. -/
structure Obeys (cmd : String) (acts : List Act) : Prop where
  read : Act.read ∉ acts
  pid : Act.printPid ∉ acts
  uptime : acts.count .printUptime ≤ 1
  exit : Act.exit ∈ acts ↔ cmd = "exit"
  small : (asBytes cmd).length ≤ 1024 → ∀ text, Act.print text ∈ acts → (asBytes text).length ≤ 1024

theorem obeys (cmd : String) : Obeys cmd (obey cmd) := by
  unfold obey handleCommand
  split_ifs with h1 h2 h3 h4 h5 h6
  · subst h2
    exact ⟨by decide, by decide, by decide, by decide, fun _ text htext => by
      rw [List.mem_singleton, Act.print.injEq] at htext
      subst htext
      decide +kernel⟩
  · subst h3
    exact ⟨by decide, by decide, by decide, by decide, fun _ text htext => by
      rw [List.mem_singleton, Act.print.injEq] at htext
      subst htext
      decide +kernel⟩
  · subst h4
    exact ⟨by decide, by decide, by decide, by decide, fun _ text htext => by
      rw [List.mem_singleton] at htext
      cases htext⟩
  · subst h5
    refine ⟨by decide, by decide, by decide, by decide, fun _ text htext => ?_⟩
    simp only [List.mem_cons, Act.print.injEq, reduceCtorEq, List.not_mem_nil, or_false, false_or] at htext
    rcases htext with rfl | rfl <;> decide +kernel
  · subst h6
    refine ⟨by decide, by decide, by decide, by decide, fun _ text htext => ?_⟩
    simp only [List.mem_cons, Act.print.injEq, reduceCtorEq, List.not_mem_nil, or_false] at htext
    subst htext
    decide +kernel
  · refine ⟨by simp, by simp, by simp, by simp [h6], fun hcmd text htext => ?_⟩
    simp only [List.mem_cons, Act.print.injEq, List.not_mem_nil, or_false] at htext
    rcases htext with rfl | rfl | rfl
    · decide +kernel
    · exact hcmd
    · decide +kernel
  · have hempty : cmd = "" := not_not.mp h1
    subst hempty
    exact ⟨by decide, by decide, by decide, by decide, fun _ _ htext => absurd htext List.not_mem_nil⟩

theorem texts_congr_pid {files : List String} {pid pid' uptime : Nat} {acts : List Act}
    (h : Act.printPid ∉ acts) :
    acts.flatMap (Act.texts files pid uptime) = acts.flatMap (Act.texts files pid' uptime) := by
  refine List.flatMap_congr fun a ha => ?_
  cases a with
  | printPid => exact absurd ha h
  | _ => rfl

theorem texts_congr_uptime {files : List String} {pid uptime uptime' : Nat} {acts : List Act}
    (h : Act.printUptime ∉ acts) :
    acts.flatMap (Act.texts files pid uptime) = acts.flatMap (Act.texts files pid uptime') := by
  refine List.flatMap_congr fun a ha => ?_
  cases a with
  | printUptime => exact absurd ha h
  | _ => rfl

/-! ## Turns -/

theorem noteUptime_append (n : Nat) (turns : List Turn) (turn : Turn) :
    noteUptime n (turns ++ [turn]) = turns ++ [{ turn with uptime := n }] := by
  unfold noteUptime
  rw [List.getLast?_append_of_ne_nil _ (List.cons_ne_nil _ _)]
  simp only [List.getLast?_singleton, List.dropLast_concat]

theorem turns_cases (turns : List Turn) : turns = [] ∨ ∃ before turn, turns = before ++ [turn] := by
  rcases List.eq_nil_or_concat turns with h | ⟨before, turn, h⟩
  · exact .inl h
  · exact .inr ⟨before, turn, by rw [h, List.concat_eq_append]⟩

/-- The value of `uptime` is all that changes. -/
theorem noteUptime_spec (n : Nat) (turns : List Turn) :
    (noteUptime n turns).filterMap Turn.line = turns.filterMap Turn.line ∧
    (noteUptime n turns).dropLast = turns.dropLast ∧
    ((∃ turn, (noteUptime n turns).getLast? = some turn ∧ turn.exits) ↔
      ∃ turn, turns.getLast? = some turn ∧ turn.exits) ∧
    ∀ n', noteUptime n' (noteUptime n turns) = noteUptime n' turns := by
  rcases turns_cases turns with rfl | ⟨before, turn, rfl⟩
  · exact ⟨rfl, rfl, Iff.rfl, fun _ => rfl⟩
  · rw [noteUptime_append]
    refine ⟨?_, ?_, ?_, fun n' => ?_⟩
    · simp only [List.filterMap_append, List.filterMap_cons, List.filterMap_nil]
    · rw [List.dropLast_concat, List.dropLast_concat]
    · simp only [List.getLast?_append, List.getLast?_singleton, Option.some_or, Option.some.injEq, exists_eq_left']
      exact Iff.rfl
    · rw [noteUptime_append, noteUptime_append]

theorem exists_noteUptime_eq (turns : List Turn) : ∃ n, noteUptime n turns = turns := by
  rcases turns_cases turns with rfl | ⟨before, turn, rfl⟩
  · exact ⟨0, rfl⟩
  · exact ⟨turn.uptime, by rw [noteUptime_append]⟩

/-! ## Steps -/

/-- What holds between two steps. The numbers that the program has still to ask for are not known: the equation in
`said` holds for all of them. -/
structure SessionInv (sys₀ : SysState) (ops₀ : List ConsoleOp) (s : Session) : Prop where
  tty : IsTty s.sys s.ttyFd
  entries : s.sys.vfs.entries = sys₀.vfs.entries
  uptime : s.sys.kernel.uptimeTicks < 2 ^ 64
  ids : ∀ id, s.sys.kernel.sched.currentTaskId = some id → id < 2 ^ 64
  lines : s.turns.filterMap Turn.line ++ s.sys.term.tty.inputQueue = sys₀.term.tty.inputQueue ++ s.completed
  small : ∀ text, Act.print text ∈ s.todo → (asBytes text).length ≤ 1024
  reads : ∃ before, s.todo = before ++ [.read] ∧ Act.read ∉ before
  onePid : s.todo.count .printPid ≤ 1
  oneUptime : s.todo.count .printUptime ≤ 1
  exits : (Act.exit ∈ s.todo ∨ s.exited = true) ↔ ∃ turn, s.turns.getLast? = some turn ∧ turn.exits
  earlier : ∀ turn ∈ s.turns.dropLast, ¬ turn.exits
  said : ∃ ops, s.sys.term.console = some ops ∧ ∀ pid uptime, (pid = s.pid ∨ Act.printPid ∈ s.todo) →
    (noteUptime uptime s.turns = s.turns ∨ Act.printUptime ∈ s.todo) →
    written ops ++ (s.todo.flatMap (Act.texts sys₀.vfs.listDir pid uptime)).filter (· ≠ "") =
      written ops₀ ++ (dialogue sys₀.vfs.listDir pid (noteUptime uptime s.turns)).filter (· ≠ "")

variable {sys₀ : SysState} {ops₀ : List ConsoleOp} {s s' : Session} {rest : List Act}

/-- The rest of what is to be done still ends with the only `read`. -/
theorem reads_rest {a : Act} (h : ∃ before, a :: rest = before ++ [.read] ∧ Act.read ∉ before) (ha : a ≠ .read) :
    ∃ before, rest = before ++ [.read] ∧ Act.read ∉ before := by
  obtain ⟨before, heq, hnot⟩ := h
  cases before with
  | nil =>
    cases heq
    exact absurd rfl ha
  | cons b before =>
    cases heq
    exact ⟨before, rfl, fun hin => hnot (List.mem_cons_of_mem _ hin)⟩

theorem reads_cons {text : String} (h : ∃ before, rest = before ++ [.read] ∧ Act.read ∉ before) :
    ∃ before, Act.print text :: rest = before ++ [.read] ∧ Act.read ∉ before := by
  obtain ⟨before, rfl, hnot⟩ := h
  exact ⟨.print text :: before, rfl, fun hin => hnot ((List.mem_cons.mp hin).resolve_left (by simp))⟩

theorem not_mem_of_count {a : Act} (h : (a :: rest).count a ≤ 1) : a ∉ rest := by
  rw [List.count_cons_self] at h
  exact List.count_eq_zero.mp (by omega)

theorem written_append (ops : List ConsoleOp) (op : ConsoleOp) :
    written (ops ++ [op]) = written ops ++ written [op] := List.filterMap_append

theorem listDir_eq (h : SessionInv sys₀ ops₀ s) : s.sys.vfs.listDir = sys₀.vfs.listDir := by
  unfold Vfs.listDir
  rw [h.entries]

theorem length_toString_le {n : Nat} (hn : n < 2 ^ 64) : (asBytes (toString n)).length ≤ 1024 := by
  by_cases hzero : n = 0
  · subst hzero
    decide +kernel
  · have hlen : (ShellLemmas.written n).length ≤ 20 := length_written_le 20 (by omega)
    have hwritten : ShellLemmas.written n = asBytes (toString n) := if_neg hzero
    rw [hwritten] at hlen
    omega

theorem SessionInv.print (h : SessionInv sys₀ ops₀ s) (htodo : s.todo = .print text :: rest) :
    ∃ s', act p regs s (.print text) rest = some s' ∧ SessionInv sys₀ ops₀ s' := by
  have hsmall := h.small text (htodo ▸ List.mem_cons_self)
  obtain ⟨mem, touched, hcall⟩ := @ttyPrint_eq p regs s.sys s.ttyFd text h.tty
    (hsmall.trans buffers_fit.2.2)
  refine ⟨_, by rw [act, hcall]; rfl, ?_⟩
  obtain ⟨ops, hconsole, hsaid⟩ := h.said
  have hqueue : (if text = "" then s.sys.term else s.sys.term.write text).tty = s.sys.term.tty := by
    split <;> rfl
  have hpid : s.todo.count .printPid = rest.count .printPid := by
    rw [htodo, List.count_cons_of_ne (by simp)]
  have hup : s.todo.count .printUptime = rest.count .printUptime := by
    rw [htodo, List.count_cons_of_ne (by simp)]
  refine ⟨h.tty, h.entries, h.uptime, h.ids, ?_, fun t ht => h.small t (htodo ▸ List.mem_cons_of_mem _ ht),
    reads_rest (htodo ▸ h.reads) (by simp), hpid ▸ h.onePid, hup ▸ h.oneUptime, ?_, h.earlier, ?_⟩
  · show _ ++ (if text = "" then s.sys.term else s.sys.term.write text).tty.inputQueue = _
    rw [hqueue]
    exact h.lines
  · rw [← h.exits, htodo, List.mem_cons]
    simp only [reduceCtorEq, false_or]
  · have hsteps : ∀ pid uptime, (pid = s.pid ∨ Act.printPid ∈ rest) →
        (noteUptime uptime s.turns = s.turns ∨ Act.printUptime ∈ rest) →
        written ops ++ ([text].filter (· ≠ "") ++
          (rest.flatMap (Act.texts sys₀.vfs.listDir pid uptime)).filter (· ≠ "")) =
            written ops₀ ++ (dialogue sys₀.vfs.listDir pid (noteUptime uptime s.turns)).filter (· ≠ "") := by
      intro pid uptime hp hu
      have heq := hsaid pid uptime (hp.imp_right fun hin => htodo ▸ List.mem_cons_of_mem _ hin)
        (hu.imp_right fun hin => htodo ▸ List.mem_cons_of_mem _ hin)
      rw [htodo, List.flatMap_cons, List.filter_append] at heq
      exact heq
    by_cases hempty : text = ""
    · subst hempty
      exact ⟨ops, hconsole, hsteps⟩
    · refine ⟨ops ++ [.writeStr text], ?_, fun pid uptime hp hu => ?_⟩
      · show (if text = "" then s.sys.term else s.sys.term.write text).console = _
        rw [if_neg hempty]
        show s.sys.term.console.map (· ++ [.writeStr text]) = _
        rw [hconsole]
        rfl
      · have heq := hsteps pid uptime hp hu
        rw [List.filter_cons_of_pos (by simpa using hempty), List.filter_nil, ← List.append_assoc] at heq
        rw [written_append]
        exact heq

/-- An action that turns into the text that it has to print. -/
theorem SessionInv.answered (h : SessionInv sys₀ ops₀ s) {a : Act} (htodo : s.todo = a :: rest) (hread : a ≠ .read)
    (hexit : a ≠ .exit) (hsmall : (asBytes text).length ≤ 1024) {mem : Nat → UInt8} {touched : List Access}
    {pid : Nat} {turns : List Turn} (hturns : turns = s.turns ∨ ∃ n, turns = noteUptime n s.turns)
    (hsaid : ∀ ops, s.sys.term.console = some ops → ∀ pid' uptime, (pid' = pid ∨ Act.printPid ∈ rest) →
      (noteUptime uptime turns = turns ∨ Act.printUptime ∈ rest) →
      written ops ++ ((Act.print text :: rest).flatMap (Act.texts sys₀.vfs.listDir pid' uptime)).filter (· ≠ "") =
        written ops₀ ++ (dialogue sys₀.vfs.listDir pid' (noteUptime uptime turns)).filter (· ≠ "")) :
    SessionInv sys₀ ops₀ { s with
      sys := { s.sys with mem := mem, touched := touched }
      todo := .print text :: rest
      pid := pid
      turns := turns } := by
  have hcount : ∀ b, b ≠ .print text → s.todo.count b ≤ 1 → (Act.print text :: rest).count b ≤ 1 := by
    intro b hb hle
    rw [htodo] at hle
    rw [List.count_cons_of_ne hb.symm]
    exact List.count_le_count_cons.trans hle
  have hnote : turns.filterMap Turn.line = s.turns.filterMap Turn.line ∧ turns.dropLast = s.turns.dropLast ∧
      ((∃ turn, turns.getLast? = some turn ∧ turn.exits) ↔ ∃ turn, s.turns.getLast? = some turn ∧ turn.exits) := by
    rcases hturns with rfl | ⟨n, rfl⟩
    · exact ⟨rfl, rfl, Iff.rfl⟩
    · obtain ⟨hlines, hdrop, hlast, -⟩ := noteUptime_spec n s.turns
      exact ⟨hlines, hdrop, hlast⟩
  obtain ⟨hlines, hdrop, hlast⟩ := hnote
  obtain ⟨ops, hconsole, -⟩ := h.said
  refine ⟨h.tty, h.entries, h.uptime, h.ids, ?_, fun t ht => ?_, reads_cons (reads_rest (htodo ▸ h.reads) hread),
    hcount _ (by simp) h.onePid, hcount _ (by simp) h.oneUptime, ?_, ?_, ops, hconsole, fun pid' uptime hp hu => ?_⟩
  · rw [hlines]
    exact h.lines
  · rcases List.mem_cons.mp ht with heq | hin
    · cases heq
      exact hsmall
    · exact h.small t (htodo ▸ List.mem_cons_of_mem _ hin)
  · have hexits := h.exits
    rw [htodo, List.mem_cons, or_iff_right hexit.symm] at hexits
    have hprint : Act.exit ≠ .print text := by simp
    rw [hlast, ← hexits, List.mem_cons, or_iff_right hprint]
  · rw [hdrop]
    exact h.earlier
  · exact hsaid ops hconsole pid' uptime (hp.imp_right fun hin => (List.mem_cons.mp hin).resolve_left (by simp))
      (hu.imp_right fun hin => (List.mem_cons.mp hin).resolve_left (by simp))

theorem SessionInv.printPid (h : SessionInv sys₀ ops₀ s) (htodo : s.todo = .printPid :: rest) :
    ∃ s', act p regs s .printPid rest = some s' ∧ SessionInv sys₀ ops₀ s' := by
  obtain ⟨n, hcall, hlt⟩ := @getpid_eq regs s.sys
  have hn := hlt h.ids
  refine ⟨_, by rw [act, hcall, printNumber_eq hn]; rfl, ?_⟩
  obtain ⟨ops, hconsole, hsaid⟩ := h.said
  refine h.answered htodo (by simp) (by simp) (length_toString_le hn) (.inl rfl) fun ops' hops' pid uptime hp hu => ?_
  rw [hconsole] at hops'
  cases hops'
  have hpid : pid = n := hp.resolve_right (not_mem_of_count (htodo ▸ h.onePid))
  subst hpid
  have heq := hsaid pid uptime (.inr (htodo ▸ List.mem_cons_self))
    (hu.imp_right fun hin => htodo ▸ List.mem_cons_of_mem _ hin)
  rw [htodo] at heq
  exact heq

theorem SessionInv.printUptime (h : SessionInv sys₀ ops₀ s) (htodo : s.todo = .printUptime :: rest) :
    ∃ s', act p regs s .printUptime rest = some s' ∧ SessionInv sys₀ ops₀ s' := by
  have hn := h.uptime
  refine ⟨_, by rw [act, uptime_eq, printNumber_eq hn]; rfl, ?_⟩
  obtain ⟨ops, hconsole, hsaid⟩ := h.said
  generalize s.sys.kernel.uptimeTicks = n at hn ⊢
  refine h.answered htodo (by simp) (by simp) (length_toString_le hn) (.inr ⟨n, rfl⟩)
    fun ops' hops' pid uptime hp hu => ?_
  rw [hconsole] at hops'
  cases hops'
  have hnot : Act.printUptime ∉ rest := not_mem_of_count (htodo ▸ h.oneUptime)
  have hsame := hu.resolve_right hnot
  have heq := hsaid pid n (hp.imp_right fun hin => htodo ▸ List.mem_cons_of_mem _ hin)
    (.inr (htodo ▸ List.mem_cons_self))
  rw [htodo, List.flatMap_cons, texts_congr_uptime hnot] at heq
  rw [hsame, List.flatMap_cons]
  exact heq

theorem SessionInv.list (h : SessionInv sys₀ ops₀ s) (htodo : s.todo = .list :: rest) :
    ∃ s', act p regs s .list rest = some s' ∧ SessionInv sys₀ ops₀ s' := by
  obtain ⟨mem, touched, hcall⟩ := @list_eq p regs s.sys
  refine ⟨_, by rw [act, hcall]; rfl, ?_⟩
  obtain ⟨ops, hconsole, hsaid⟩ := h.said
  rw [listDir_eq h]
  refine h.answered htodo (by simp) (by simp) ?_ (.inl rfl) fun ops' hops' pid uptime hp hu => ?_
  · unfold listingText
    cases htext : fromUtf8 (lsLoop 1024 sys₀.vfs.listDir []) with
    | none => exact Nat.zero_le _
    | some text =>
      rw [Option.getD_some, asBytes_of_fromUtf8 htext]
      exact length_lsLoop _ (Nat.zero_le _)
  · rw [hconsole] at hops'
    cases hops'
    have heq := hsaid pid uptime (hp.imp_right fun hin => htodo ▸ List.mem_cons_of_mem _ hin)
      (hu.imp_right fun hin => htodo ▸ List.mem_cons_of_mem _ hin)
    rw [htodo] at heq
    exact heq

theorem dialogue_append (files : List String) (pid : Nat) (turns : List Turn) (turn : Turn) :
    dialogue files pid (turns ++ [turn]) = dialogue files pid turns ++ (answer files turn ++ ["> "]) := by
  unfold dialogue
  rw [List.flatMap_append, List.flatMap_singleton]
  simp only [List.append_assoc]

/-- What the shell is going to write when it has read. -/
theorem reaction_texts (files : List String) (pid uptime : Nat) (head : Option String) :
    (reaction head ++ round).flatMap (Act.texts files pid uptime) = answer files ⟨head, uptime⟩ ++ ["> "] := by
  have hround : round.flatMap (Act.texts files pid uptime) = ["> "] := rfl
  rw [List.flatMap_append, hround]
  congr 1
  cases head with
  | none => rfl
  | some line => exact texts_congr_pid (obeys _).pid

theorem SessionInv.read (h : SessionInv sys₀ ops₀ s) (htodo : s.todo = .read :: rest) (hrun : s.exited = false) :
    ∃ s', act p regs s .read rest = some s' ∧ SessionInv sys₀ ops₀ s' := by
  obtain ⟨mem, touched, hcall⟩ := @readLine_eq p regs s.sys s.ttyFd h.tty
  refine ⟨_, by rw [act, hcall]; rfl, ?_⟩
  -- nothing is to be done behind the `read`
  have hrest : rest = [] := by
    obtain ⟨before, heq, hnot⟩ := htodo ▸ h.reads
    cases before with
    | nil =>
      cases heq
      rfl
    | cons b before =>
      cases heq
      exact absurd List.mem_cons_self hnot
  subst hrest
  have hnoExit : ¬ ∃ turn, s.turns.getLast? = some turn ∧ turn.exits := by
    rw [← h.exits, htodo, hrun]
    simp
  obtain ⟨ops, hconsole, hsaid⟩ := h.said
  have hnow : ∀ pid, pid = s.pid → written ops =
      written ops₀ ++ (dialogue sys₀.vfs.listDir pid s.turns).filter (· ≠ "") := by
    intro pid hpid
    obtain ⟨uptime, hsame⟩ := exists_noteUptime_eq s.turns
    have heq := hsaid pid uptime (.inl hpid) (.inl hsame)
    rw [hsame, htodo] at heq
    exact (List.append_nil _).symm.trans heq
  have hobeys : ∀ line, Obeys (commandIn line) (obey (commandIn line)) := fun line => obeys _
  generalize hhead : s.sys.term.tty.inputQueue.head? = head
  have hacts : (Act.read ∉ reaction head ∧ Act.printPid ∉ reaction head ∧ (reaction head).count .printUptime ≤ 1) ∧
      (Act.exit ∈ reaction head ↔ Turn.exits ⟨head, 0⟩) ∧
      ∀ text, Act.print text ∈ reaction head → (asBytes text).length ≤ 1024 := by
    cases head with
    | none =>
      refine ⟨⟨List.not_mem_nil, List.not_mem_nil, Nat.zero_le _⟩, ?_, fun _ hin => absurd hin List.not_mem_nil⟩
      exact ⟨fun hin => absurd hin List.not_mem_nil, fun hexits => nomatch hexits⟩
    | some line =>
      have hline := hobeys line
      refine ⟨⟨hline.read, hline.pid, hline.uptime⟩, ?_, hline.small ((length_commandIn_le line).trans (by decide))⟩
      unfold Turn.exits
      rw [Option.map_some, Option.some.injEq]
      exact hline.exit
  obtain ⟨⟨hreadNot, hpidNot, huptime⟩, hexit, hsmall⟩ := hacts
  refine ⟨h.tty, h.entries, h.uptime, h.ids, ?_, fun text htext => ?_, ⟨reaction head ++ [.print "> "], ?_, ?_⟩, ?_, ?_,
    ?_, ?_, ops, hconsole, fun pid uptime hp hu => ?_⟩
  · show (s.turns ++ [(⟨head, 0⟩ : Turn)]).filterMap Turn.line ++ s.sys.term.tty.inputQueue.tail = _
    rw [← h.lines, List.filterMap_append, List.append_assoc]
    congr 1
    cases hq : s.sys.term.tty.inputQueue with
    | nil =>
      rw [hq] at hhead
      subst hhead
      rfl
    | cons line queue =>
      rw [hq] at hhead
      subst hhead
      rfl
  · rcases List.mem_append.mp htext with hin | hin
    · exact hsmall text hin
    · simp only [round, List.mem_cons, Act.print.injEq, reduceCtorEq, List.not_mem_nil, or_false] at hin
      subst hin
      decide +kernel
  · show reaction head ++ round = _
    rw [List.append_assoc]
    rfl
  · simp only [List.mem_append, hreadNot, List.mem_singleton, reduceCtorEq, or_false, not_false_eq_true]
  · show (reaction head ++ round).count .printPid ≤ 1
    rw [List.count_append, List.count_eq_zero.mpr hpidNot]
    decide
  · show (reaction head ++ round).count .printUptime ≤ 1
    rw [List.count_append]
    exact huptime
  · show Act.exit ∈ reaction head ++ round ∨ s.exited = true ↔
      ∃ turn, (s.turns ++ [(⟨head, 0⟩ : Turn)]).getLast? = some turn ∧ turn.exits
    simp only [List.getLast?_append, List.getLast?_singleton, Option.some_or, Option.some.injEq, exists_eq_left']
    rw [← hexit, hrun, List.mem_append]
    simp [round]
  · show ∀ turn ∈ (s.turns ++ [(⟨head, 0⟩ : Turn)]).dropLast, ¬ turn.exits
    rw [List.dropLast_concat]
    intro turn hturn hexits
    rcases turns_cases s.turns with hnil | ⟨before, last, hlast⟩
    · rw [hnil] at hturn
      cases hturn
    · rw [hlast] at hturn
      rcases List.mem_append.mp hturn with hin | hin
      · refine h.earlier turn ?_ hexits
        rw [hlast, List.dropLast_concat]
        exact hin
      · refine hnoExit ⟨turn, ?_, hexits⟩
        rw [hlast, List.mem_singleton.mp hin, List.getLast?_concat]
  · have hroundPid : Act.printPid ∉ reaction head ++ round := by
      rw [List.mem_append, not_or]
      exact ⟨hpidNot, by decide⟩
    have hpid := hp.resolve_right hroundPid
    rw [noteUptime_append, dialogue_append, List.filter_append, ← List.append_assoc, ← hnow pid hpid,
      ← reaction_texts sys₀.vfs.listDir pid uptime head]

theorem SessionInv.exit (h : SessionInv sys₀ ops₀ s) (htodo : s.todo = .exit :: rest) :
    ∃ s', act p regs s .exit rest = some s' ∧ SessionInv sys₀ ops₀ s' := by
  obtain ⟨kernel, serial, hcall, huptime, hid⟩ := @exit_eq regs s.sys
  refine ⟨_, by rw [act, hcall], ?_⟩
  obtain ⟨ops, hconsole, hsaid⟩ := h.said
  refine ⟨h.tty, h.entries, huptime ▸ h.uptime, fun id heq => h.ids id (hid ▸ heq), h.lines,
    fun t ht => h.small t (htodo ▸ List.mem_cons_of_mem _ ht), reads_rest (htodo ▸ h.reads) (by simp), ?_, ?_, ?_,
    h.earlier, ops, hconsole, fun pid uptime hp hu => ?_⟩
  · exact List.count_le_count_cons.trans (htodo ▸ h.onePid)
  · exact List.count_le_count_cons.trans (htodo ▸ h.oneUptime)
  · rw [← h.exits, htodo]
    exact ⟨fun _ => .inl List.mem_cons_self, fun _ => .inr rfl⟩
  · have heq := hsaid pid uptime (hp.imp_right fun hin => htodo ▸ List.mem_cons_of_mem _ hin)
      (hu.imp_right fun hin => htodo ▸ List.mem_cons_of_mem _ hin)
    rw [htodo] at heq
    exact heq

/-- A key completes a line or changes the line buffer; the echo is not a text that was written. -/
theorem handleInput_spec (c : Char) (term : Terminal) :
    (term.handleInput c).tty.inputQueue =
      term.tty.inputQueue ++ (if c = '\n' ∨ c = '\r' then [term.tty.lineBuffer.push '\n'] else []) ∧
    ∀ ops, term.console = some ops →
      ∃ ops', (term.handleInput c).console = some ops' ∧ written ops' = written ops := by
  have hask : ∀ (op : ConsoleOp) (t : Terminal) (ops : List ConsoleOp), t.console = some ops → written [op] = [] →
      ∃ ops', (t.ask op).console = some ops' ∧ written ops' = written ops := by
    intro op t ops hops hop
    refine ⟨ops ++ [op], ?_, by rw [written_append, hop, List.append_nil]⟩
    unfold Terminal.ask
    rw [hops]
    rfl
  unfold Terminal.handleInput
  split_ifs with hline herase hcontrol
  · exact ⟨rfl, fun ops hops => hask _ _ ops hops rfl⟩
  · rw [List.append_nil]
    cases popChar term.tty.lineBuffer with
    | some rest => exact ⟨rfl, fun ops hops => hask _ _ ops hops rfl⟩
    | none => exact ⟨rfl, fun ops hops => ⟨ops, hops, rfl⟩⟩
  · rw [List.append_nil]
    exact ⟨rfl, fun ops hops => hask _ _ ops hops rfl⟩
  · rw [List.append_nil]
    exact ⟨rfl, fun ops hops => ⟨ops, hops, rfl⟩⟩

theorem start_inv {e : VfsEntry} {j : Fin maxOpenFiles} (hentry : sys₀.vfs.lookup "tty" = some e)
    (hfree : sys₀.vfs.firstFree = some j) (hops : sys₀.term.console = some ops₀)
    (huptime : sys₀.kernel.uptimeTicks < 2 ^ 64)
    (hid : ∀ id, sys₀.kernel.sched.currentTaskId = some id → id < 2 ^ 64) :
    ∃ s, Session.start p regs sys₀ = some s ∧ SessionInv sys₀ ops₀ s := by
  obtain ⟨mem, touched, hopen⟩ := @openTty_eq p regs sys₀ e j hentry hfree
  refine ⟨_, by rw [Session.start, hopen]; rfl, ?_⟩
  constructor
  case tty =>
    show ((sys₀.vfs.setDescriptor j _).descriptor j).map _ = _
    rw [VfsLemmas.descriptor_setDescriptor j.isLt]
    rfl
  case entries => exact VfsLemmas.entries_setDescriptor ..
  case uptime => exact huptime
  case ids => exact hid
  case lines => exact (List.append_nil _).symm
  case small =>
    intro text htext
    simp only [greeting, round, List.cons_append, List.nil_append, List.mem_cons, Act.print.injEq, reduceCtorEq,
      List.not_mem_nil, or_false, false_or] at htext
    rcases htext with rfl | rfl | rfl | rfl <;> decide +kernel
  case reads => exact ⟨greeting ++ [.print "> "], rfl, by decide⟩
  case onePid => exact (by decide : (greeting ++ round).count .printPid ≤ 1)
  case oneUptime => exact (by decide : (greeting ++ round).count .printUptime ≤ 1)
  case exits =>
    refine ⟨fun hexit => ?_, fun ⟨turn, hlast, _⟩ => absurd hlast.symm (Option.some_ne_none turn)⟩
    rcases hexit with hin | hexited
    · exact absurd hin (by decide : Act.exit ∉ greeting ++ round)
    · cases hexited
  case earlier => exact fun turn hturn => absurd hturn List.not_mem_nil
  case said =>
    refine ⟨ops₀, hops, fun pid uptime _ _ => ?_⟩
    rw [List.append_cancel_left_eq]
    rfl

end SessionLemmas

open SessionLemmas

end Turnix.Shell
