import Turnix.VfsRuns

/-!
# Input of the terminal

Lines are put together in the handler of the keyboard, wait in a queue, and are read as bytes. A read
takes a whole line out of the queue and returns what its buffer has room for, so the rest of a longer
line is lost (`short_read_loses_input`). `tty_input_delivered`: in runs in which each read has room for
the line that is next, all that is typed reaches the readers.
-/

namespace Turnix

open Lib VfsLemmas VfsRunLemmas

/-- The descriptor is one of the terminal. -/
def Files.isTty (s : Files) (fdIndex : Nat) : Bool :=
  (s.vfs.descriptor fdIndex).map FileDescriptor.name = some "tty"

/-- The system, with the bytes that reads of the terminal have returned and the lines that were
completed. -/
structure TtyRun where
  files : Files
  delivered : List UInt8
  completed : List String

/-- The bytes that a read returns. -/
def Files.readBytes (s : Files) (fdIndex : Nat) (buf : List UInt8) : List UInt8 :=
  let r := s.vfs.read s.term fdIndex buf
  r.buf.take (r.ret.getD 0)

/-- One operation and what it adds to the two records. -/
def ttyStep (s : TtyRun) (op : FileOp) : Option TtyRun :=
  (fileStep s.files op).map fun files => {
    files := files
    delivered := match op with
      | .read fdIndex buf =>
        if s.files.isTty fdIndex then s.delivered ++ s.files.readBytes fdIndex buf else s.delivered
      | _ => s.delivered
    completed := match op with
      | .key c =>
        if c = '\n' ∨ c = '\r' then s.completed ++ [s.files.term.tty.lineBuffer.push '\n']
        else s.completed
      | _ => s.completed }

/-- A read of the terminal has room for the whole line that is next, if there is one. -/
def LineFits (s : TtyRun) : FileOp → Prop
  | .read fdIndex buf => s.files.isTty fdIndex = true →
    ((s.files.term.tty.inputQueue.head?.map asBytes).getD []).length ≤ buf.length
  | _ => True

instance (s : TtyRun) : ∀ op, Decidable (LineFits s op)
  | .read _ _ => inferInstanceAs (Decidable (_ → _))
  | .open _ | .close _ | .write _ _ | .seek _ _ | .mkdir _ | .unlink _ | .chdir _ | .key _ =>
    isTrue trivial

/-- What was returned are the first bytes of the lines that were completed; and all of them, where a read
returns 0. -/
def InputKept (s : TtyRun) : Prop :=
  s.delivered <+: s.completed.flatMap asBytes ∧
  ∀ fdIndex buf, s.files.isTty fdIndex = true → buf ≠ [] →
    (s.files.vfs.read s.files.term fdIndex buf).ret = some 0 →
      s.delivered = s.completed.flatMap asBytes

/-- The system before anything was typed. -/
def TtyRun.start (v : Vfs) (console : Option (List ConsoleOp)) : TtyRun :=
  ⟨⟨v, ⟨⟨"", []⟩, console⟩⟩, [], []⟩

namespace TtyLemmas

/-- The invariant: what was not returned yet is in the queue. -/
structure InputInv (s : TtyRun) : Prop where
  split : s.delivered ++ s.files.term.tty.inputQueue.flatMap asBytes = s.completed.flatMap asBytes
  lines : ∀ line ∈ s.files.term.tty.inputQueue, asBytes line ≠ []

theorem asBytes_push_ne_nil (s : String) (c : Char) : asBytes (s.push c) ≠ [] := by
  intro h
  have hsize : (asBytes (s.push c)).length = (s.push c).utf8ByteSize := rfl
  rw [h, String.utf8ByteSize_push] at hsize
  have hc := c.utf8Size_pos
  rw [List.length_nil] at hsize
  omega

theorem descriptor_of_isTty {s : Files} {fdIndex : Nat} (h : s.isTty fdIndex = true) :
    ∃ d, s.vfs.descriptor fdIndex = some d ∧ d.name = "tty" :=
  Option.map_eq_some_iff.mp (of_decide_eq_true h)

theorem read_tty_empty {s : Files} {fdIndex : Nat} (h : s.isTty fdIndex = true)
    (hq : s.term.tty.inputQueue = []) (buf : List UInt8) :
    s.vfs.read s.term fdIndex buf = ⟨some 0, s.vfs, s.term, buf⟩ := by
  obtain ⟨d, hd, hname⟩ := descriptor_of_isTty h
  unfold Vfs.read Terminal.readLine
  simp only [hd, hname, hq, ↓reduceIte]

theorem read_tty_line {s : Files} {fdIndex : Nat} (h : s.isTty fdIndex = true) {line : String}
    {rest : List String} (hq : s.term.tty.inputQueue = line :: rest) (buf : List UInt8) :
    s.vfs.read s.term fdIndex buf = ⟨some (min buf.length (asBytes line).length), s.vfs,
      { s.term with tty := { s.term.tty with inputQueue := rest } },
      overwrite buf ((asBytes line).take (min buf.length (asBytes line).length))⟩ := by
  obtain ⟨d, hd, hname⟩ := descriptor_of_isTty h
  unfold Vfs.read Terminal.readLine
  simp only [hd, hname, hq, ↓reduceIte]

theorem read_other {s : Files} {fdIndex : Nat} (h : s.isTty fdIndex = false) (buf : List UInt8) :
    (s.vfs.read s.term fdIndex buf).term = s.term := by
  unfold Files.isTty at h
  unfold Vfs.read
  split
  · rfl
  · next d hd =>
    rw [hd] at h
    have hname : ¬ d.name = "tty" := fun heq => of_decide_eq_false h (congrArg some heq)
    rw [if_neg hname]
    split
    · rfl
    · split
      · rfl
      · dsimp only
        split <;> rfl

theorem write_tty {v : Vfs} {room : Nat → Bool} {term : Terminal} {fdIndex : Nat} {buf : List UInt8}
    {r : WriteResult} (h : v.write room term fdIndex buf = .ok r) : r.term.tty = term.tty := by
  unfold Vfs.write at h
  split at h
  · cases h
    rfl
  · split at h
    · split at h <;>
      · cases h
        rfl
    · split at h
      · cases h
        rfl
      · split at h
        · cases h
          rfl
        · dsimp only at h
          split at h <;>
          · obtain ⟨_, -, h⟩ := bind_eq_ok.mp h
            obtain ⟨_, -, h⟩ := bind_eq_ok.mp h
            obtain ⟨_, -, h⟩ := bind_eq_ok.mp h
            cases h
            rfl

/-- A key completes a line, or leaves the queue alone. -/
theorem inputQueue_handleInput (c : Char) (t : Terminal) : (t.handleInput c).tty.inputQueue =
    if c = '\n' ∨ c = '\r' then t.tty.inputQueue ++ [t.tty.lineBuffer.push '\n']
    else t.tty.inputQueue := by
  unfold Terminal.handleInput
  by_cases hline : c = '\n' ∨ c = '\r'
  · rw [if_pos hline, if_pos hline]
    rfl
  · rw [if_neg hline, if_neg hline]
    split
    · split <;> rfl
    · split <;> rfl

theorem InputInv.same {s s' : TtyRun} (h : InputInv s)
    (hq : s'.files.term.tty.inputQueue = s.files.term.tty.inputQueue)
    (hd : s'.delivered = s.delivered) (hc : s'.completed = s.completed) : InputInv s' := by
  constructor
  · rw [hq, hd, hc]
    exact h.split
  · rw [hq]
    exact h.lines

theorem InputInv.read {s : TtyRun} (h : InputInv s) {fdIndex : Nat} {buf : List UInt8}
    (hfits : LineFits s (.read fdIndex buf)) {s' : TtyRun}
    (hstep : ttyStep s (.read fdIndex buf) = some s') : InputInv s' := by
  cases hstep
  by_cases htty : s.files.isTty fdIndex = true
  · have hlen := hfits htty
    rcases hq : s.files.term.tty.inputQueue with _ | ⟨line, rest⟩
    · refine h.same ?_ ?_ rfl
      · show (s.files.vfs.read s.files.term fdIndex buf).term.tty.inputQueue = _
        rw [read_tty_empty htty hq]
      · dsimp only
        rw [if_pos htty]
        unfold Files.readBytes
        rw [read_tty_empty htty hq]
        exact List.append_nil _
    · -- the buffer takes the whole line
      rw [hq] at hlen
      have hmin : min buf.length (asBytes line).length = (asBytes line).length :=
        Nat.min_eq_right hlen
      have hbytes : s.files.readBytes fdIndex buf = asBytes line := by
        unfold Files.readBytes
        rw [read_tty_line htty hq, hmin, List.take_length]
        exact List.take_left
      have hrest : (s.files.vfs.read s.files.term fdIndex buf).term.tty.inputQueue = rest := by
        rw [read_tty_line htty hq]
      have hsplit := h.split
      have hlines := h.lines
      rw [hq] at hsplit hlines
      constructor
      · dsimp only
        rw [if_pos htty, hbytes, hrest, List.append_assoc]
        exact hsplit
      · dsimp only
        rw [hrest]
        exact fun l hl => hlines l (List.mem_cons_of_mem _ hl)
  · refine h.same ?_ ?_ rfl
    · show (s.files.vfs.read s.files.term fdIndex buf).term.tty.inputQueue = _
      rw [read_other (Bool.not_eq_true _ ▸ htty)]
    · exact if_neg htty

theorem InputInv.key {s s' : TtyRun} (h : InputInv s) {c : Char}
    (hstep : ttyStep s (.key c) = some s') : InputInv s' := by
  cases hstep
  have hqueue := inputQueue_handleInput c s.files.term
  by_cases hline : c = '\n' ∨ c = '\r'
  · rw [if_pos hline] at hqueue
    constructor
    · dsimp only
      rw [if_pos hline, hqueue, List.flatMap_append, List.flatMap_append, ← List.append_assoc, h.split]
    · dsimp only
      rw [hqueue]
      intro line hin
      rcases List.mem_append.mp hin with hin | hin
      · exact h.lines line hin
      · rw [List.mem_singleton.mp hin]
        exact asBytes_push_ne_nil _ _
  · rw [if_neg hline] at hqueue
    exact h.same hqueue rfl (if_neg hline)

theorem InputInv.step {s s' : TtyRun} {op : FileOp} (h : InputInv s) (hfits : LineFits s op)
    (hstep : ttyStep s op = some s') : InputInv s' := by
  cases op with
  | read fdIndex buf => exact h.read hfits hstep
  | key c => exact h.key hstep
  | write fdIndex buf =>
    obtain ⟨files, hfiles, rfl⟩ := Option.map_eq_some_iff.mp hstep
    refine h.same ?_ rfl rfl
    unfold fileStep at hfiles
    dsimp only at hfiles
    split at hfiles
    · next r hr =>
      cases hfiles
      exact congrArg Tty.inputQueue (write_tty hr)
    · cases hfiles
  | «open» path | close fdIndex | seek fdIndex offset | mkdir path | unlink path | chdir path =>
    cases hstep
    exact h.same rfl rfl rfl

theorem InputInv.kept {s : TtyRun} (h : InputInv s) : InputKept s := by
  constructor
  · exact ⟨_, h.split⟩
  · intro fdIndex buf htty hbuf hret
    rcases hq : s.files.term.tty.inputQueue with _ | ⟨line, rest⟩
    · have hsplit := h.split
      rw [hq, List.flatMap_nil, List.append_nil] at hsplit
      exact hsplit
    · -- a line has bytes, and so has the buffer
      rw [read_tty_line htty hq] at hret
      have hline := List.length_pos_iff.mpr (h.lines line (hq ▸ List.mem_cons_self))
      have hpos := List.length_pos_iff.mpr hbuf
      have hzero := Option.some.inj hret
      omega

end TtyLemmas

open TtyLemmas

/-- In every run in which each read of the terminal has room for the line that is next, nothing that was
typed is lost. -/
theorem tty_input_delivered (v : Vfs) (console : Option (List ConsoleOp)) {ops : List FileOp}
    {s : TtyRun} (hfits : AllSteps ttyStep LineFits (TtyRun.start v console) ops)
    (hrun : run ttyStep (TtyRun.start v console) ops = some s) : InputKept s := by
  have hstart : InputInv (TtyRun.start v console) := ⟨rfl, fun line hin => nomatch hin⟩
  have hinv : InputInv s :=
    run_invariant_of (fun _ _ _ hs hC hstep => hs.step hC hstep) hstart hfits hrun
  exact hinv.kept

/-- A file system with the terminal open as descriptor 0. -/
def ttyVfs : Vfs := ⟨defaultEntries, fun j => if j.val = 0 then some ⟨"tty", .device, 0⟩ else none, "/"⟩

theorem tty_input_delivered_sample :
    ∃ s, run ttyStep (TtyRun.start ttyVfs none) [.key 'a', .key '\n', .read 0 [0, 0, 0], .key 'b'] =
      some s ∧ InputKept s := by
  have hrun : (run ttyStep (TtyRun.start ttyVfs none)
      [.key 'a', .key '\n', .read 0 [0, 0, 0], .key 'b']).map TtyRun.delivered =
        some [97, 10] := by decide
  obtain ⟨s, hs, -⟩ := Option.map_eq_some_iff.mp hrun
  exact ⟨s, hs, tty_input_delivered ttyVfs none (by decide) hs⟩

/-- A read of one byte takes the whole line out of the queue: the rest of it is never returned, and the
next read returns 0. -/
theorem short_read_loses_input :
    ∃ s, run ttyStep (TtyRun.start ttyVfs none) [.key 'a', .key '\n', .read 0 [0]] = some s ∧
      ¬ InputKept s := by
  have hrun : (run ttyStep (TtyRun.start ttyVfs none) [.key 'a', .key '\n', .read 0 [0]]).map
      (fun s => (s.delivered, s.completed, s.files.isTty 0,
        (s.files.vfs.read s.files.term 0 [0]).ret)) =
      some ([97], ["a\n"], true, some 0) := by decide
  obtain ⟨s, hs, hproj⟩ := Option.map_eq_some_iff.mp hrun
  rw [Prod.mk.injEq, Prod.mk.injEq, Prod.mk.injEq] at hproj
  obtain ⟨hdelivered, hcompleted, htty, hret⟩ := hproj
  refine ⟨s, hs, fun hkept => ?_⟩
  have hall := hkept.2 0 [0] htty (by decide) hret
  rw [hdelivered, hcompleted] at hall
  exact absurd hall (by decide)

end Turnix
