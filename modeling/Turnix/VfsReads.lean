import Turnix.VfsRuns

/-!
# Sequential reads

What the callers of `Vfs::read` see of a run. The abstract model is a stream: a reader at an offset of
fixed contents, that knows nothing of descriptors, names or other readers. A descriptor that was opened
on a file refines it (`readLog_stream`), for as long as nobody writes, seeks or unlinks; that chunking
makes no difference is then a fact about the stream alone.
-/

namespace Turnix

open Lib VfsLemmas

/-- What one `read` was given and what it gave back. -/
structure ReadRecord where
  fdIndex : Nat
  buf : List UInt8
  ret : Option Nat
  filled : List UInt8
deriving DecidableEq, Repr

/-- The bytes that the read returned. -/
def ReadRecord.bytes (r : ReadRecord) : List UInt8 := r.filled.take (r.ret.getD 0)

/-- The buffer keeps its length, and is changed in the bytes that are counted in the result only. -/
def ReadRecord.FillsFirst (r : ReadRecord) : Prop :=
  r.ret.getD 0 ≤ r.buf.length ∧ r.filled.length = r.buf.length ∧
    r.filled.drop (r.ret.getD 0) = r.buf.drop (r.ret.getD 0)

/-- The record of an operation, if it is a `read`. -/
def readRecord (s : Files) : FileOp → List ReadRecord
  | .read fdIndex buf =>
    let r := s.vfs.read s.term fdIndex buf
    [⟨fdIndex, buf, r.ret, r.buf⟩]
  | _ => []

/-- The reads of a run, in order. The run ends at a `write` that panics. -/
def readLog : Files → List FileOp → List ReadRecord
  | _, [] => []
  | s, op :: ops =>
    readRecord s op ++
      match fileStep s op with
      | some s' => readLog s' ops
      | none => []

/-- The reads through one descriptor. -/
def through (fdIndex : Nat) (log : List ReadRecord) : List ReadRecord :=
  log.filter (·.fdIndex = fdIndex)

/-- The buffers that the operations bring to one descriptor. -/
def buffersOf (fdIndex : Nat) (ops : List FileOp) : List (List UInt8) :=
  ops.filterMap fun
    | .read j buf => if j = fdIndex then some buf else none
    | _ => none

/-- Neither a write, a seek nor an unlink, and the descriptor stays open. -/
def FileOp.leavesOpen (fdIndex : Nat) : FileOp → Bool
  | .write .. | .seek .. | .unlink _ => false
  | .close j => j ≠ fdIndex
  | _ => true

/-! ## The stream -/

/-- A reader at `offset` of `d`: what reads with these buffers give, one after the other. -/
def stream (fdIndex : Nat) (d : List UInt8) : Nat → List (List UInt8) → List ReadRecord
  | _, [] => []
  | offset, buf :: bufs =>
    let n := min buf.length (d.length - offset)
    ⟨fdIndex, buf, some n, overwrite buf ((d.drop offset).take n)⟩ :: stream fdIndex d (offset + n) bufs

namespace VfsReadLemmas

theorem overwrite_fillsFirst {buf src : List UInt8} (h : src.length ≤ buf.length) (fdIndex : Nat) :
    ReadRecord.FillsFirst ⟨fdIndex, buf, some src.length, overwrite buf src⟩ := by
  refine ⟨h, ?_, ?_⟩
  · simp only [overwrite, List.length_append, List.length_drop]
    omega
  · simp only [overwrite, Option.getD_some, List.drop_left]

theorem take_overwrite (buf src : List UInt8) : (overwrite buf src).take src.length = src :=
  List.take_left

/-- What the stream returns from `offset` on is the file from there, cut at the sum of the buffers. -/
theorem stream_bytes (fdIndex : Nat) (d : List UInt8) : ∀ (bufs : List (List UInt8)) (offset : Nat),
    (stream fdIndex d offset bufs).flatMap ReadRecord.bytes =
      (d.drop offset).take (bufs.map List.length).sum
  | [], offset => by simp [stream]
  | buf :: bufs, offset => by
    have hlen : ((d.drop offset).take (min buf.length (d.length - offset))).length =
        min buf.length (d.length - offset) := by
      rw [List.length_take, List.length_drop]
      omega
    have hhead : (d.drop offset).take (min buf.length (d.length - offset)) =
        (d.drop offset).take buf.length := by
      rw [← List.length_drop, List.take_eq_take_iff]
      omega
    have htail : ((d.drop (offset + min buf.length (d.length - offset))).take
        (bufs.map List.length).sum) = ((d.drop offset).drop buf.length).take
          (bufs.map List.length).sum := by
      rw [List.drop_drop]
      rcases Nat.le_total buf.length (d.length - offset) with hle | hle
      · rw [Nat.min_eq_left hle]
      · -- both are past the end
        rw [Nat.min_eq_right hle, List.drop_eq_nil_of_le (by omega), List.drop_eq_nil_of_le (by omega)]
    have hbytes : ReadRecord.bytes ⟨fdIndex, buf, some (min buf.length (d.length - offset)),
        overwrite buf ((d.drop offset).take (min buf.length (d.length - offset)))⟩ =
          (d.drop offset).take (min buf.length (d.length - offset)) := by
      simpa only [ReadRecord.bytes, Option.getD_some, hlen] using take_overwrite buf
        ((d.drop offset).take (min buf.length (d.length - offset)))
    rw [stream, List.flatMap_cons, stream_bytes fdIndex d bufs, hbytes, hhead, htail, List.map_cons,
      List.sum_cons, List.take_add]

/-! ## A descriptor refines the stream -/

/-- Descriptor `i` stands at `offset` of the file `path`, whose contents are `d`. -/
structure Reading (i : Nat) (path : String) (d : List UInt8) (offset : Nat) (v : Vfs) : Prop where
  notTty : path ≠ "tty"
  contents : ∃ e, v.lookup path = some e ∧ e.data = some d
  at_offset : ∃ fileType, v.descriptor i = some ⟨path, fileType, offset⟩

variable {i j offset : Nat} {path : String} {d : List UInt8} {v : Vfs}

theorem Reading.setDescriptor (h : Reading i path d offset v) (hij : i ≠ j) (x : Option FileDescriptor) :
    Reading i path d offset (v.setDescriptor j x) := by
  refine ⟨h.notTty, ?_, ?_⟩
  · rw [lookup_setDescriptor]
    exact h.contents
  · rw [descriptor_setDescriptor_of_ne hij]
    exact h.at_offset

/-- A read through the descriptor itself is the first read of the stream. -/
theorem Reading.read (h : Reading i path d offset v) (term : Terminal) (buf : List UInt8) :
    (v.read term i buf).ret = some (min buf.length (d.length - offset)) ∧
    (v.read term i buf).buf =
      overwrite buf ((d.drop offset).take (min buf.length (d.length - offset))) ∧
    Reading i path d (offset + min buf.length (d.length - offset)) (v.read term i buf).vfs := by
  obtain ⟨htty, ⟨e, he, hdata⟩, ⟨fileType, hfd⟩⟩ := h
  unfold Vfs.read
  simp only [hfd, htty, he, hdata, ↓reduceIte]
  by_cases hend : offset ≥ d.length
  · have hn : min buf.length (d.length - offset) = 0 := by omega
    rw [if_pos hend, hn]
    exact ⟨rfl, rfl, htty, ⟨e, he, hdata⟩, ⟨fileType, hfd⟩⟩
  · rw [if_neg hend]
    refine ⟨rfl, rfl, htty, ⟨e, ?_, hdata⟩, ⟨fileType, ?_⟩⟩
    · rw [lookup_setDescriptor]
      exact he
    · rw [descriptor_setDescriptor (descriptor_lt hfd)]

theorem Reading.open (h : Reading i path d offset v) (other : String) :
    Reading i path d offset (v.open other).2 := by
  rcases open_cases v other with ⟨-, heq⟩ | ⟨j, e, hfree, -, heq⟩ <;> rw [heq]
  · exact h
  · refine h.setDescriptor (fun hij => ?_) _
    obtain ⟨fileType, hfd⟩ := h.at_offset
    rw [hij, firstFree_free hfree] at hfd
    cases hfd

theorem Reading.mkdir (h : Reading i path d offset v) (other : String) :
    Reading i path d offset (v.mkdir other).2 := by
  unfold Vfs.mkdir
  split
  · exact h
  · obtain ⟨e, he, hdata⟩ := h.contents
    refine ⟨h.notTty, ⟨e, ?_, hdata⟩, h.at_offset⟩
    unfold Vfs.lookup at he ⊢
    rw [List.find?_append, he]
    rfl

/-- Every operation that is allowed and is not a read through the descriptor leaves it where it is. -/
theorem Reading.fileStep {s s' : Files} {op : FileOp} (h : Reading i path d offset s.vfs)
    (hop : op.leavesOpen i = true) (hother : buffersOf i [op] = [])
    (hstep : fileStep s op = some s') : Reading i path d offset s'.vfs := by
  cases op with
  | «open» other =>
    cases hstep
    exact h.open other
  | close j =>
    cases hstep
    have hij : i ≠ j := fun hij => of_decide_eq_true hop hij.symm
    show Reading i path d offset (s.vfs.close j).2
    unfold Vfs.close
    split
    · exact h.setDescriptor hij none
    · exact h
  | read j buf =>
    cases hstep
    have hij : i ≠ j := by
      rintro rfl
      simp [buffersOf] at hother
    rcases VfsRunLemmas.read_cases s.vfs s.term j buf with heq | ⟨_, _, _, -, -, heq⟩ <;>
      simp only [heq]
    · exact h
    · exact h.setDescriptor hij _
  | mkdir other =>
    cases hstep
    exact h.mkdir other
  | chdir other =>
    cases hstep
    show Reading i path d offset (s.vfs.chdir other).2
    unfold Vfs.chdir
    split
    · exact ⟨h.notTty, h.contents, h.at_offset⟩
    · exact h
  | key c =>
    cases hstep
    exact h
  | write j buf => cases hop
  | seek j o => cases hop
  | unlink other => cases hop

theorem fileStep_isSome {s : Files} {op : FileOp} (hop : op.leavesOpen i = true) :
    ∃ s', Turnix.fileStep s op = some s' := by
  cases op with
  | write j buf => cases hop
  | _ => exact ⟨_, rfl⟩

theorem through_readRecord_of_other {s : Files} {op : FileOp} (hother : buffersOf i [op] = []) :
    through i (readRecord s op) = [] := by
  cases op with
  | read j buf =>
    have hij : j ≠ i := by
      rintro rfl
      simp [buffersOf] at hother
    simp [through, readRecord, hij]
  | _ => rfl

/-- The reads through a descriptor that stands at `offset` of a file are those of the stream there. -/
theorem readLog_stream : ∀ {ops : List FileOp} {s : Files} {offset : Nat},
    Reading i path d offset s.vfs → ops.all (FileOp.leavesOpen i) = true →
      through i (readLog s ops) = stream i d offset (buffersOf i ops)
  | [], _, _, _, _ => rfl
  | op :: ops, s, offset, h, hops => by
    rw [List.all_cons, Bool.and_eq_true] at hops
    obtain ⟨s', hstep⟩ := fileStep_isSome (s := s) hops.1
    have hlog : through i (readLog s (op :: ops)) =
        through i (readRecord s op) ++ through i (readLog s' ops) := by
      rw [readLog, hstep, through, List.filter_append, through, through]
    have hbufs : buffersOf i (op :: ops) = buffersOf i [op] ++ buffersOf i ops :=
      List.filterMap_append (l := [op])
    rw [hlog, hbufs]
    by_cases hother : buffersOf i [op] = []
    · rw [hother, through_readRecord_of_other hother,
        readLog_stream (h.fileStep hops.1 hother hstep) hops.2]
      rfl
    · -- only a read through `i` brings it a buffer
      cases op with
      | read j buf =>
        have hij : i = j := by
          by_contra hij
          simp [buffersOf, Ne.symm hij] at hother
        subst hij
        cases hstep
        obtain ⟨hret, hbuf, hnext⟩ := h.read s.term buf
        rw [readLog_stream (s := ⟨_, _⟩) hnext hops.2]
        simp [through, readRecord, buffersOf, stream, hret, hbuf]
      | _ => exact absurd rfl hother

/-! ## What every read does -/

theorem read_fillsFirst (v : Vfs) (term : Terminal) (fdIndex : Nat) (buf : List UInt8) :
    ReadRecord.FillsFirst ⟨fdIndex, buf, (v.read term fdIndex buf).ret, (v.read term fdIndex buf).buf⟩ := by
  have hsame : ∀ ret : Option Nat, ret.getD 0 = 0 →
      ReadRecord.FillsFirst ⟨fdIndex, buf, ret, buf⟩ := by
    intro ret hret
    unfold ReadRecord.FillsFirst
    rw [hret]
    exact ⟨Nat.zero_le _, rfl, rfl⟩
  have hfilled : ∀ (n : Nat) (src : List UInt8), n ≤ buf.length → n ≤ src.length →
      ReadRecord.FillsFirst ⟨fdIndex, buf, some n, overwrite buf (src.take n)⟩ := by
    intro n src hbuf hsrc
    have hlen : (src.take n).length = n := List.length_take_of_le hsrc
    have := overwrite_fillsFirst (hlen.trans_le hbuf) fdIndex
    rwa [hlen] at this
  unfold Vfs.read
  split
  · exact hsame none rfl
  · split
    · split
      · exact hfilled _ _ (Nat.min_le_left _ _) (Nat.min_le_right _ _)
      · exact hsame (some 0) rfl
    · split
      · exact hsame none rfl
      · split
        · exact hsame none rfl
        · dsimp only
          split
          · exact hsame (some 0) rfl
          · exact hfilled _ _ (Nat.min_le_left _ _) (by rw [List.length_drop]; exact Nat.min_le_right _ _)

theorem readLog_fillsFirst : ∀ (ops : List FileOp) (s : Files), ∀ r ∈ readLog s ops, r.FillsFirst
  | [], _, _, h => by cases h
  | op :: ops, s, r, h => by
    rw [readLog, List.mem_append] at h
    rcases h with h | h
    · cases op with
      | read j buf =>
        rw [List.mem_singleton.mp h]
        exact read_fillsFirst s.vfs s.term j buf
      | _ => cases h
    · split at h
      · exact readLog_fillsFirst ops _ r h
      · cases h

theorem reading_of_open {v' : Vfs} {e : VfsEntry} (hopen : v.open path = (some i, v'))
    (htty : path ≠ "tty") (hentry : v.lookup path = some e) (hdata : e.data = some d) :
    Reading i path d 0 v' := by
  rcases open_cases v path with ⟨-, heq⟩ | ⟨j, e', -, -, heq⟩ <;> rw [heq] at hopen <;> cases hopen
  refine ⟨htty, ⟨e, ?_, hdata⟩, ⟨e'.fileType, ?_⟩⟩
  · rw [lookup_setDescriptor]
    exact hentry
  · exact descriptor_setDescriptor j.isLt _

end VfsReadLemmas

open VfsReadLemmas

/-- Reads through a descriptor stream its file. From `open` on, and whatever is read through other
descriptors or opened in between: the bytes that its reads returned are the first of the file, as many as
its buffers hold; a read changes no byte of a buffer that it does not count; the reads depend on the
buffers brought to this descriptor only; and once the buffers hold the size that `stat` tells, the bytes
are those of one read into a buffer of that size. -/
theorem reads_stream_file {s : Files} {path : String} {e : VfsEntry} {d : List UInt8} {i : Nat} {v' : Vfs}
    (hopen : s.vfs.open path = (some i, v')) (htty : path ≠ "tty")
    (hentry : s.vfs.lookup path = some e) (hdata : e.data = some d) {ops : List FileOp}
    (hops : ops.all (FileOp.leavesOpen i) = true) :
    (through i (readLog ⟨v', s.term⟩ ops)).flatMap ReadRecord.bytes =
        d.take (min d.length ((buffersOf i ops).map List.length).sum) ∧
      (∀ r ∈ readLog ⟨v', s.term⟩ ops, r.FillsFirst) ∧
      (∀ others : List FileOp, others.all (FileOp.leavesOpen i) = true →
        buffersOf i others = buffersOf i ops →
          through i (readLog ⟨v', s.term⟩ others) = through i (readLog ⟨v', s.term⟩ ops)) ∧
      ∃ stat, v'.stat path = some stat ∧ ∀ buf : List UInt8, buf.length = stat.size →
        (v'.read s.term i buf).ret = some stat.size ∧
        (stat.size ≤ ((buffersOf i ops).map List.length).sum →
          (through i (readLog ⟨v', s.term⟩ ops)).flatMap ReadRecord.bytes =
            (v'.read s.term i buf).buf) := by
  have hreading : Reading i path d 0 v' := reading_of_open hopen htty hentry hdata
  have hstream : ∀ {ops : List FileOp}, ops.all (FileOp.leavesOpen i) = true →
      through i (readLog ⟨v', s.term⟩ ops) = stream i d 0 (buffersOf i ops) :=
    readLog_stream (s := ⟨v', s.term⟩) hreading
  have hbytes : (through i (readLog ⟨v', s.term⟩ ops)).flatMap ReadRecord.bytes =
      d.take (min d.length ((buffersOf i ops).map List.length).sum) := by
    rw [hstream hops, stream_bytes, List.drop_zero, Nat.min_comm, ← List.take_take, List.take_length]
  refine ⟨hbytes, readLog_fillsFirst ops _, fun others hothers heq => ?_, ?_⟩
  · rw [hstream hothers, hstream hops, heq]
  · obtain ⟨e', he', hdata'⟩ := hreading.contents
    refine ⟨⟨d.length, e'.fileType⟩, ?_, fun buf hbuf => ?_⟩
    · rw [Vfs.stat, he', Option.map_some, hdata']
      rfl
    · obtain ⟨hret, hfilled, -⟩ := hreading.read s.term buf
      have hn : min buf.length (d.length - 0) = d.length := by
        rw [hbuf, Nat.sub_zero, Nat.min_self]
      rw [hn] at hret hfilled
      refine ⟨hret, fun hsum => ?_⟩
      rw [hbytes, hfilled, Nat.min_eq_left hsum, List.drop_zero, List.take_length, overwrite,
        List.drop_eq_nil_of_le hbuf.le, List.append_nil]

theorem sampleVfs_open : sampleVfs.open "notes" = (some 1, (sampleVfs.open "notes").2) := rfl

/-- Two readers of one file of three bytes, in turns; the first one reads past the end. -/
theorem reads_stream_file_sample :
    (through 1 (readLog ⟨(sampleVfs.open "notes").2, ⟨⟨"", []⟩, none⟩⟩
      [.read 1 [0, 0], .open "notes", .read 2 [0], .read 1 [], .read 2 [0, 0], .read 1 [0, 0]])).flatMap
        ReadRecord.bytes = [1, 2, 3] :=
  (reads_stream_file (s := ⟨sampleVfs, ⟨⟨"", []⟩, none⟩⟩) sampleVfs_open (by decide) sampleVfs_lookup rfl
    (by decide)).1

end Turnix
