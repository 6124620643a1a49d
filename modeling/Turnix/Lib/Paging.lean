import Mathlib.Data.BitVec
import Mathlib.Logic.Function.Basic
import Turnix.Lib.Span

/-!
# Four-level paging

Physical memory by frames of 512 words, each word with the fields of a page-table entry; the page
walk of the hardware; and what mapping a page does to the tables (`MapTo`). The level of a table is
the number of tables below it on a walk: the root has level 3, a table of leaves level 0.

`Shape` is the invariant of a set of tables that were built by mapping pages: every table has one
level, and the leaves map frames that are no tables. `mapTo_effect` says that mapping a page keeps it,
and what else it keeps.
-/

namespace Turnix.Lib.Paging

/-! ## Memory -/

/-- The number of a frame of physical memory. -/
abbrev Frame := BitVec 40

theorem toNat_frame {n : Nat} (h : n < 2 ^ 40) : (BitVec.ofNat 40 n).toNat = n := by
  rw [BitVec.toNat_ofNat, Nat.mod_eq_of_lt h]

/-- The bits of an entry that are not part of its address: 52 to 63, and 0 to 11. -/
@[ext]
structure Flags where
  high : BitVec 12
  low : BitVec 12
deriving DecidableEq, Repr

namespace Flags

def empty : Flags := ⟨0, 0⟩
def present : Flags := ⟨0, 0x1⟩
def writable : Flags := ⟨0, 0x2⟩
def user : Flags := ⟨0, 0x4⟩
def huge : Flags := ⟨0, 0x80⟩
def bit9 : Flags := ⟨0, 0x200⟩
def noExecute : Flags := ⟨0x800, 0⟩

/-- All flags of both. -/
def union (a b : Flags) : Flags := ⟨a.high ||| b.high, a.low ||| b.low⟩

/-- The flags of `a` that are not in `b`. -/
def remove (a b : Flags) : Flags := ⟨a.high &&& ~~~b.high, a.low &&& ~~~b.low⟩

def isPresent (a : Flags) : Bool := a.low.getLsbD 0
def isWritable (a : Flags) : Bool := a.low.getLsbD 1
def isUser (a : Flags) : Bool := a.low.getLsbD 2
def isHuge (a : Flags) : Bool := a.low.getLsbD 7
def isNoExecute (a : Flags) : Bool := a.high.getLsbD 11

end Flags

/-- A word of memory, as an entry of a page table. -/
@[ext]
structure Entry where
  flags : Flags
  frame : Frame
deriving DecidableEq, Repr

/-- The word zero. -/
def Entry.unused : Entry := ⟨.empty, 0⟩

/-- A frame, word by word. -/
abbrev Table := Fin 512 → Entry

/-- Physical memory. -/
abbrev Ram := Frame → Table

/-- Store a word. -/
def Ram.set (ram : Ram) (f : Frame) (i : Fin 512) (e : Entry) : Ram :=
  Function.update ram f (Function.update (ram f) i e)

/-- Store all words of a frame. -/
def Ram.setTable (ram : Ram) (f : Frame) (t : Table) : Ram := Function.update ram f t

/-- The bytes of a frame. -/
def frameSpan (f : Frame) : Span := ⟨f.toNat * 4096, 4096⟩

/-- The bytes of a word. -/
def entrySpan (f : Frame) (i : Fin 512) : Span := ⟨f.toNat * 4096 + 8 * i, 8⟩

theorem entrySpan_within (f : Frame) (i : Fin 512) : (entrySpan f i).Within (frameSpan f) := by
  have hi := i.isLt
  unfold Span.Within entrySpan frameSpan
  dsimp only
  omega

theorem Ram.set_self (ram : Ram) (f : Frame) (i : Fin 512) (e : Entry) : ram.set f i e f i = e := by
  unfold Ram.set
  rw [Function.update_self, Function.update_self]

theorem Ram.set_of_frame_ne {ram : Ram} {f f' : Frame} (h : f' ≠ f) (i : Fin 512) (e : Entry) :
    ram.set f i e f' = ram f' := Function.update_of_ne h _ _

theorem Ram.set_of_ne {ram : Ram} {f f' : Frame} {i i' : Fin 512} (h : ¬ (f' = f ∧ i' = i))
    (e : Entry) : ram.set f i e f' i' = ram f' i' := by
  unfold Ram.set
  by_cases hf : f' = f
  · subst hf
    rw [Function.update_self, Function.update_of_ne fun hi => h ⟨rfl, hi⟩]
  · rw [Function.update_of_ne hf]

theorem Ram.setTable_self (ram : Ram) (f : Frame) (t : Table) : ram.setTable f t f = t :=
  Function.update_self _ _ _

theorem Ram.setTable_of_ne {ram : Ram} {f f' : Frame} (h : f' ≠ f) (t : Table) :
    ram.setTable f t f' = ram f' := Function.update_of_ne h _ _

/-! ## The page walk -/

instance instNeZeroEntries : NeZero 512 := ⟨by decide⟩

/-- The index of a page, given by its number, in its table of a level. -/
def index (level page : Nat) : Fin 512 := Fin.ofNat 512 (page / 512 ^ level)

theorem index_lower {page : Nat} (h : page < 2 ^ 35) : (index 3 page).val < 256 := by
  show page / 512 ^ 3 % 512 < 256
  omega

theorem index_upper {va : Nat} (h : 2 ^ 64 - 2 ^ 47 ≤ va) (h' : va < 2 ^ 64) :
    256 ≤ (index 3 (va / 4096)).val := by
  show 256 ≤ va / 4096 / 512 ^ 3 % 512
  omega

/-- Where a page is mapped: its frame, the flags of the leaf, and whether all levels allow writing and
access from ring 3. -/
structure Translation where
  frame : Frame
  flags : Flags
  writable : Bool
  user : Bool
deriving DecidableEq, Repr

/-- An entry above the leaf takes away rights. -/
def Translation.under (e : Entry) (tr : Translation) : Translation :=
  { tr with writable := e.flags.isWritable && tr.writable, user := e.flags.isUser && tr.user }

/-- The leaf of a page of `512 ^ level` frames. -/
def leafOf (level page : Nat) (e : Entry) : Translation where
  frame := e.frame + BitVec.ofNat 40 (page % 512 ^ level)
  flags := e.flags
  writable := e.flags.isWritable
  user := e.flags.isUser

/-- The page walk, from the table `t` of a level. An entry of the root must not have the flag of a large
page. -/
def walk (ram : Ram) : Nat → Frame → Nat → Option Translation
  | 0, t, page =>
    let e := ram t (index 0 page)
    if e.flags.isPresent then some (leafOf 0 page e) else none
  | level + 1, t, page =>
    let e := ram t (index (level + 1) page)
    if e.flags.isPresent then
      if e.flags.isHuge then if level < 2 then some (leafOf (level + 1) page e) else none
      else (walk ram level e.frame page).map (Translation.under e)
    else none

/-- What a walk meets is as the tables of a kernel are: a leaf that is used is present, the frame of a large page is
aligned to its size, and there is no large page in the root. -/
def Regular (ram : Ram) : Nat → Frame → Nat → Prop
  | 0, t, page => ram t (index 0 page) = .unused ∨ (ram t (index 0 page)).flags.isPresent = true
  | level + 1, t, page =>
    let e := ram t (index (level + 1) page)
    e.flags.isPresent = true →
      if e.flags.isHuge = true then level < 2 ∧ 512 ^ (level + 1) ∣ e.frame.toNat
      else Regular ram level e.frame page

/-- The tables below `t` and the frame that a walk comes to. -/
def walkFrames (ram : Ram) : Nat → Frame → Nat → List Frame
  | 0, t, page =>
    let e := ram t (index 0 page)
    if e.flags.isPresent then [(leafOf 0 page e).frame] else []
  | level + 1, t, page =>
    let e := ram t (index (level + 1) page)
    if e.flags.isPresent then
      if e.flags.isHuge then [(leafOf (level + 1) page e).frame]
      else e.frame :: walkFrames ram level e.frame page
    else []

/-! ## Mapping a page -/

/-- Why a page has not been mapped. -/
inductive MapToError
  | frameAllocationFailed
  | parentEntryHugePage
  | pageAlreadyMapped
deriving DecidableEq, Repr

/-- Memory, the frames that are left, the spans that were written, and the result. -/
structure MapOutcome where
  ram : Ram
  frames : List Frame
  writes : List Span
  result : Except MapToError Unit

/-- The outcome after an earlier write. -/
def MapOutcome.after (writes : List Span) (out : MapOutcome) : MapOutcome :=
  { out with writes := writes ++ out.writes }

/-- The flags that the entries above a leaf get: they are present. -/
def tableFlags (writable user : Bool) : Flags :=
  let f := if writable then Flags.present.union .writable else .present
  if user then f.union .user else f

/-- What mapping `page` to `frame` may do, from the table `t` of a level on. Missing tables are made from
the frames of the allocator. The entries above the leaf become present and allow access from ring 3 if
the leaf does; they allow writing if the leaf does, and maybe otherwise. A leaf that is used stays. -/
inductive MapTo (page : Nat) (frame : Frame) (flags : Flags) :
    Nat → Frame → Ram → List Frame → MapOutcome → Prop
  | leaf {t : Frame} {ram : Ram} {frames : List Frame} (hfree : ram t (index 0 page) = .unused) :
      MapTo page frame flags 0 t ram frames
        ⟨ram.set t (index 0 page) ⟨flags, frame⟩, frames, [entrySpan t (index 0 page)], .ok ()⟩
  | used {t : Frame} {ram : Ram} {frames : List Frame} (hused : ram t (index 0 page) ≠ .unused) :
      MapTo page frame flags 0 t ram frames ⟨ram, frames, [], .error .pageAlreadyMapped⟩
  | exhausted {level : Nat} {t : Frame} {ram : Ram} (hfree : ram t (index (level + 1) page) = .unused) :
      MapTo page frame flags (level + 1) t ram []
        ⟨ram, [], [], .error .frameAllocationFailed⟩
  | create {level : Nat} {t f : Frame} {ram : Ram} {frames : List Frame} {out : MapOutcome}
      (hfree : ram t (index (level + 1) page) = .unused) (w : Bool)
      (hrest : MapTo page frame flags level f
        ((ram.set t (index (level + 1) page) ⟨tableFlags (w || flags.isWritable) flags.isUser, f⟩).setTable f
          fun _ => .unused) frames out) :
      MapTo page frame flags (level + 1) t ram (f :: frames)
        (out.after [entrySpan t (index (level + 1) page), frameSpan f])
  | huge {level : Nat} {t : Frame} {ram : Ram} {frames : List Frame} {e : Entry}
      (he : ram t (index (level + 1) page) = e) (hused : e ≠ .unused) (hhuge : e.flags.isHuge = true)
      (w : Bool) :
      MapTo page frame flags (level + 1) t ram frames
        ⟨ram.set t (index (level + 1) page)
          { e with flags := e.flags.union (tableFlags (w || flags.isWritable) flags.isUser) }, frames,
          [entrySpan t (index (level + 1) page)], .error .parentEntryHugePage⟩
  | descend {level : Nat} {t : Frame} {ram : Ram} {frames : List Frame} {out : MapOutcome} {e : Entry}
      (he : ram t (index (level + 1) page) = e) (hused : e ≠ .unused)
      (hhuge : e.flags.isHuge = false) (w : Bool)
      (hrest : MapTo page frame flags level e.frame
        (ram.set t (index (level + 1) page)
          { e with flags := e.flags.union (tableFlags (w || flags.isWritable) flags.isUser) }) frames out) :
      MapTo page frame flags (level + 1) t ram frames
        (out.after [entrySpan t (index (level + 1) page)])

/-- Mapping a page, when the entries above the leaf get just the rights of the leaf. -/
def mapPage (page : Nat) (frame : Frame) (flags : Flags) : Nat → Frame → Ram → List Frame → MapOutcome
  | 0, t, ram, frames =>
    if ram t (index 0 page) = .unused then
      ⟨ram.set t (index 0 page) ⟨flags, frame⟩, frames, [entrySpan t (index 0 page)], .ok ()⟩
    else ⟨ram, frames, [], .error .pageAlreadyMapped⟩
  | level + 1, t, ram, frames =>
    let e := ram t (index (level + 1) page)
    let link := tableFlags flags.isWritable flags.isUser
    if e = .unused then
      match frames with
      | [] => ⟨ram, [], [], .error .frameAllocationFailed⟩
      | f :: frames =>
        (mapPage page frame flags level f
          ((ram.set t (index (level + 1) page) ⟨link, f⟩).setTable f fun _ => .unused) frames).after
          [entrySpan t (index (level + 1) page), frameSpan f]
    else
      let ram := ram.set t (index (level + 1) page) { e with flags := e.flags.union link }
      if e.flags.isHuge then
        ⟨ram, frames, [entrySpan t (index (level + 1) page)], .error .parentEntryHugePage⟩
      else (mapPage page frame flags level e.frame ram frames).after
        [entrySpan t (index (level + 1) page)]

theorem mapPage_mapTo {page : Nat} {frame : Frame} {flags : Flags} :
    ∀ (level : Nat) (t : Frame) (ram : Ram) (frames : List Frame),
      MapTo page frame flags level t ram frames (mapPage page frame flags level t ram frames)
  | 0, t, ram, frames => by
    unfold mapPage
    by_cases hfree : ram t (index 0 page) = .unused
    · rw [if_pos hfree]
      exact .leaf hfree
    · rw [if_neg hfree]
      exact .used hfree
  | level + 1, t, ram, frames => by
    unfold mapPage
    dsimp only
    by_cases hfree : ram t (index (level + 1) page) = .unused
    · rw [if_pos hfree]
      cases frames with
      | nil => exact .exhausted hfree
      | cons f frames => exact .create hfree false (mapPage_mapTo level f _ frames)
    · rw [if_neg hfree]
      rcases hhuge : (ram t (index (level + 1) page)).flags.isHuge with _ | _
      · rw [if_neg Bool.false_ne_true]
        exact .descend rfl hfree hhuge false (mapPage_mapTo level _ _ frames)
      · rw [if_pos rfl]
        exact .huge rfl hfree hhuge false

/-! ## Flags -/

theorem Flags.isPresent_union (a b : Flags) :
    (a.union b).isPresent = (a.isPresent || b.isPresent) := BitVec.getLsbD_or

theorem Flags.isHuge_union (a b : Flags) : (a.union b).isHuge = (a.isHuge || b.isHuge) :=
  BitVec.getLsbD_or

theorem Flags.isUser_union (a b : Flags) : (a.union b).isUser = (a.isUser || b.isUser) :=
  BitVec.getLsbD_or

theorem Flags.isWritable_union (a b : Flags) :
    (a.union b).isWritable = (a.isWritable || b.isWritable) := BitVec.getLsbD_or

theorem Flags.isNoExecute_union (a b : Flags) :
    (a.union b).isNoExecute = (a.isNoExecute || b.isNoExecute) := BitVec.getLsbD_or

theorem Flags.union_empty (a : Flags) : a.union .empty = a :=
  Flags.ext (BitVec.or_zero) (BitVec.or_zero)

theorem Flags.empty_union (a : Flags) : Flags.empty.union a = a :=
  Flags.ext (BitVec.zero_or) (BitVec.zero_or)

theorem tableFlags_isPresent (w u : Bool) : (tableFlags w u).isPresent = true := by
  cases w <;> cases u <;> rfl

theorem tableFlags_isHuge (w u : Bool) : (tableFlags w u).isHuge = false := by
  cases w <;> cases u <;> rfl

theorem tableFlags_isWritable (w u : Bool) : (tableFlags w u).isWritable = w := by
  cases w <;> cases u <;> rfl

theorem tableFlags_isUser (w u : Bool) : (tableFlags w u).isUser = u := by
  cases w <;> cases u <;> rfl

theorem ne_unused_of_present {e : Entry} (h : e.flags.isPresent = true) : e ≠ .unused := by
  rintro rfl
  cases h

/-! ## The shape of tables -/

/-- What a frame is used for. A table has a level and a number: it is for the pages whose position in the
level above it is that number. -/
inductive Kind
  /-- nothing that is known -/
  | other
  | root
  | table (level key : Nat)
  /-- mapped by a leaf, as that page -/
  | data (page : Nat)
deriving DecidableEq, Repr

/-- The number of the entry of a page among all entries of a level. -/
def position (level page : Nat) : Nat := page % 512 ^ 4 / 512 ^ level

theorem position_root (page : Nat) : position 4 page = 0 :=
  Nat.div_eq_of_lt (Nat.mod_lt _ (by decide))

theorem position_zero (page : Nat) : position 0 page = page % 512 ^ 4 := Nat.div_one _

/-- The index of a page in its table. -/
theorem position_succ (page : Nat) : ∀ {level : Nat}, level ≤ 3 →
    position (level + 1) page * 512 + (index level page).val = position level page
  | 0, _ => by
    show page % 512 ^ 4 / 512 ^ 1 * 512 + page / 512 ^ 0 % 512 = page % 512 ^ 4 / 512 ^ 0
    omega
  | 1, _ => by
    show page % 512 ^ 4 / 512 ^ 2 * 512 + page / 512 ^ 1 % 512 = page % 512 ^ 4 / 512 ^ 1
    omega
  | 2, _ => by
    show page % 512 ^ 4 / 512 ^ 3 * 512 + page / 512 ^ 2 % 512 = page % 512 ^ 4 / 512 ^ 2
    omega
  | 3, _ => by
    show page % 512 ^ 4 / 512 ^ 4 * 512 + page / 512 ^ 3 % 512 = page % 512 ^ 4 / 512 ^ 3
    omega
  | _ + 4, h => absurd h (by omega)

/-- The entry is unused, or it points to that table. -/
def Points (kind : Frame → Kind) (level key : Nat) (e : Entry) : Prop :=
  e = .unused ∨ (e.flags.isPresent = true ∧ e.flags.isHuge = false ∧ kind e.frame = .table level key)

/-- The table `t` is that one, and its entry `i` is known. Of the entries of a root only those in `cover`
are. -/
def Inner (cover : Frame → Fin 512 → Prop) (kind : Frame → Kind) (level key : Nat) (t : Frame)
    (i : Fin 512) : Prop :=
  kind t = .table level key ∨ (level = 3 ∧ key = 0 ∧ kind t = .root ∧ cover t i)

/-- The table `t` is that of a page in a level. -/
def Holds (cover : Frame → Fin 512 → Prop) (kind : Frame → Kind) (level page : Nat) (t : Frame) : Prop :=
  Inner cover kind level (position (level + 1) page) t (index level page)

/-- The entry may stand there: it points to a table of the level below, or it maps a frame that is no
table. -/
structure Fits (cover : Frame → Fin 512 → Prop) (kind : Frame → Kind) (t : Frame) (i : Fin 512)
    (e : Entry) : Prop where
  inner : ∀ level key, Inner cover kind (level + 1) key t i → Points kind level (key * 512 + i.val) e
  leaf : ∀ key, kind t = .table 0 key →
    e = .unused ∨ (e.flags.isPresent = true ∧ kind e.frame = .data (key * 512 + i.val))

/-- Every table has one place, and leaves map frames that are no tables, each one for one page. -/
def Shape (cover : Frame → Fin 512 → Prop) (kind : Frame → Kind) (ram : Ram) : Prop :=
  ∀ t i, Fits cover kind t i (ram t i)

/-- Frames that were used for something are still used for that. -/
def Extends (kind kind' : Frame → Kind) : Prop := ∀ f, kind f ≠ .other → kind' f = kind f

section Shapes

variable {cover : Frame → Fin 512 → Prop} {kind kind' kind'' : Frame → Kind} {ram ram' : Ram}
  {level key page : Nat} {t f : Frame} {i : Fin 512} {e : Entry}

theorem Extends.refl (kind : Frame → Kind) : Extends kind kind := fun _ _ => rfl

theorem ne_other_of_root (hf : kind f = .root) : kind f ≠ .other := by
  rw [hf]
  nofun

theorem ne_other_of_table (hf : kind f = .table level key) : kind f ≠ .other := by
  rw [hf]
  nofun

theorem ne_other_of_data (hf : kind f = .data page) : kind f ≠ .other := by
  rw [hf]
  nofun

theorem Extends.root (h : Extends kind kind') (hf : kind f = .root) : kind' f = .root :=
  (h f (ne_other_of_root hf)).trans hf

theorem Extends.table (h : Extends kind kind') (hf : kind f = .table level key) :
    kind' f = .table level key := (h f (ne_other_of_table hf)).trans hf

theorem Extends.data (h : Extends kind kind') (hf : kind f = .data page) : kind' f = .data page :=
  (h f (ne_other_of_data hf)).trans hf

theorem Extends.trans (h : Extends kind kind') (h' : Extends kind' kind'') : Extends kind kind'' :=
  fun f hf => (h' f (h f hf ▸ hf)).trans (h f hf)

theorem extends_update (hf : kind f = .other) (k : Kind) :
    Extends kind (Function.update kind f k) := by
  intro f' hf'
  refine Function.update_of_ne ?_ k kind
  rintro rfl
  exact hf' hf

theorem Points.mono (h : Points kind level key e) (hext : Extends kind kind') :
    Points kind' level key e := by
  rcases h with h | ⟨hp, hh, hk⟩
  · exact .inl h
  · exact .inr ⟨hp, hh, hext.table hk⟩

theorem Inner.mono (h : Inner cover kind level key t i) (hext : Extends kind kind') :
    Inner cover kind' level key t i := by
  rcases h with h | ⟨hl, h0, hk, hc⟩
  · exact .inl (hext.table h)
  · exact .inr ⟨hl, h0, hext.root hk, hc⟩

theorem Inner.ne_other (h : Inner cover kind level key t i) : kind t ≠ .other := by
  rcases h with h | ⟨-, -, h, -⟩
  · exact ne_other_of_table h
  · exact ne_other_of_root h

theorem Inner.no_frame (h : Inner cover kind level key t i) :
    ¬ (kind t = .other ∨ kind t = .data page) := by
  rcases h with h | ⟨-, -, h, -⟩ <;> rw [h] <;> rintro (h' | h') <;> cases h'

/-- A table has one place. -/
theorem Inner.unique {level' key' : Nat} {j : Fin 512} (h : Inner cover kind level key t i)
    (h' : Inner cover kind level' key' t j) : level' = level ∧ key' = key := by
  rcases h with h | ⟨hl, h0, hk, -⟩ <;> rcases h' with h' | ⟨hl', h0', hk', -⟩
  · rw [h] at h'
    cases h'
    exact ⟨rfl, rfl⟩
  · rw [h] at hk'
    cases hk'
  · rw [hk] at h'
    cases h'
  · rw [hl, hl', h0, h0']
    exact ⟨rfl, rfl⟩

/-- The root is the table of every page. -/
theorem holds_root (hk : kind t = .root) (hc : cover t (index 3 page)) : Holds cover kind 3 page t :=
  .inr ⟨rfl, position_root page, hk, hc⟩

theorem fits_unused : Fits cover kind t i .unused := ⟨fun _ _ _ => .inl rfl, fun _ _ => .inl rfl⟩

theorem Fits.mono (h : Fits cover kind t i e) (hext : Extends kind kind') (ht : kind' t = kind t) :
    Fits cover kind' t i e := by
  constructor
  case inner =>
    intro level key hin
    refine (h.inner level key ?_).mono hext
    unfold Inner at hin ⊢
    rwa [ht] at hin
  case leaf =>
    intro key h0
    rw [ht] at h0
    rcases h.leaf key h0 with hu | ⟨hp, hd⟩
    · exact .inl hu
    · exact .inr ⟨hp, hext.data hd⟩

/-- An entry above the leaves fits if it points to its table of the level below. -/
theorem fits_of_points (ht : Inner cover kind (level + 1) key t i)
    (h : Points kind level (key * 512 + i.val) e) : Fits cover kind t i e := by
  constructor
  case inner =>
    intro level' key' hin
    obtain ⟨hl, rfl⟩ := ht.unique hin
    obtain rfl : level' = level := Nat.succ.inj hl
    exact h
  case leaf =>
    intro key' h0
    exact absurd (ht.unique (j := i) (.inl h0)).1 (Nat.succ_ne_zero level).symm

theorem fits_of_data (ht : kind t = .table 0 key) (hp : e.flags.isPresent = true)
    (h : kind e.frame = .data (key * 512 + i.val)) : Fits cover kind t i e := by
  constructor
  case inner =>
    intro level key' hin
    exact absurd (hin.unique (j := i) (.inl ht)).1 (Nat.succ_ne_zero level).symm
  case leaf =>
    intro key' h0
    rw [ht] at h0
    cases h0
    exact .inr ⟨hp, h⟩

/-- The entry of a page in its table, above the leaves. -/
theorem Shape.points (hs : Shape cover kind ram) (hlevel : level + 1 ≤ 3)
    (ht : Holds cover kind (level + 1) page t) :
    Points kind level (position (level + 1) page) (ram t (index (level + 1) page)) := by
  have h := (hs t (index (level + 1) page)).inner level _ ht
  rwa [position_succ page hlevel] at h

/-- The frame rule: what has not changed fits, so only what has changed must. -/
theorem Shape.change (hs : Shape cover kind ram) (hext : Extends kind kind')
    (hnew : ∀ t i, kind' t = kind t ∧ ram' t i = ram t i ∨ Fits cover kind' t i (ram' t i)) :
    Shape cover kind' ram' := by
  intro t i
  rcases hnew t i with ⟨hk, heq⟩ | h
  · rw [heq]
    exact (hs t i).mono hext hk
  · exact h

theorem Shape.set (hs : Shape cover kind ram) (h : Fits cover kind t i e) :
    Shape cover kind (ram.set t i e) := by
  refine hs.change (.refl kind) fun t' i' => ?_
  by_cases heq : t' = t ∧ i' = i
  · obtain ⟨rfl, rfl⟩ := heq
    rw [Ram.set_self]
    exact .inr h
  · exact .inl ⟨rfl, Ram.set_of_ne heq e⟩

/-- A frame that is no table may hold anything. -/
theorem fits_of_no_table (h : ∀ level key, ¬ Inner cover kind level key t i) : Fits cover kind t i e :=
  ⟨fun level key hin => absurd hin (h (level + 1) key), fun key h0 => absurd (.inl h0) (h 0 key)⟩

/-- A new, empty table is linked. -/
theorem Shape.link (hs : Shape cover kind ram) (ht : Inner cover kind (level + 1) key t i)
    (hf : kind f = .other) {flags : Flags} (hp : flags.isPresent = true)
    (hh : flags.isHuge = false) :
    Shape cover (Function.update kind f (.table level (key * 512 + i.val)))
      ((ram.set t i ⟨flags, f⟩).setTable f fun _ => .unused) := by
  have hext := extends_update hf (.table level (key * 512 + i.val))
  refine hs.change hext fun t' i' => ?_
  by_cases hf' : t' = f
  · subst hf'
    right
    unfold Ram.setTable
    rw [Function.update_self]
    exact fits_unused
  · unfold Ram.setTable
    rw [Function.update_of_ne hf', Function.update_of_ne hf']
    by_cases heq : t' = t ∧ i' = i
    · obtain ⟨rfl, rfl⟩ := heq
      right
      rw [Ram.set_self]
      refine fits_of_points (ht.mono hext) (.inr ⟨hp, hh, ?_⟩)
      exact Function.update_self f _ kind
    · exact .inl ⟨rfl, Ram.set_of_ne heq _⟩

/-- An entry above the leaves that points to a table gets flags, and it still does. -/
theorem Shape.relink (hs : Shape cover kind ram) (hlevel : level + 1 ≤ 3)
    (ht : Holds cover kind (level + 1) page t) (he : ram t (index (level + 1) page) = e)
    (hused : e ≠ .unused) {g : Flags} (hg : g.isHuge = false) :
    e.flags.isPresent = true ∧ kind e.frame = .table level (position (level + 1) page) ∧
      (e.flags.union g).isHuge = false ∧
      Shape cover kind (ram.set t (index (level + 1) page) { e with flags := e.flags.union g }) := by
  rcases hs.points hlevel ht with hu | ⟨hp, hh, hk⟩
  · exact absurd (he.symm.trans hu) hused
  rw [he] at hp hh hk
  have hp' : (e.flags.union g).isPresent = true := by
    rw [Flags.isPresent_union, hp, Bool.true_or]
  have hh' : (e.flags.union g).isHuge = false := by
    rw [Flags.isHuge_union, hh, hg]
    rfl
  have hpoints : Points kind level (position (level + 1 + 1) page * 512 + (index (level + 1) page).val)
      { e with flags := e.flags.union g } := by
    rw [position_succ page hlevel]
    exact .inr ⟨hp', hh', hk⟩
  exact ⟨hp, hk, hh', hs.set (fits_of_points ht hpoints)⟩

theorem extends_update_data (hf : kind f = .other ∨ kind f = .data page) :
    Extends kind (Function.update kind f (.data page)) := by
  rcases hf with hf | hf
  · exact extends_update hf (.data page)
  · rw [← hf, Function.update_eq_self]
    exact .refl kind

/-- A leaf maps a new frame, or one that is mapped elsewhere as the same page. -/
theorem Shape.map (hs : Shape cover kind ram) (ht : kind t = .table 0 key)
    (hf : kind f = .other ∨ kind f = .data (key * 512 + i.val)) {flags : Flags} (hp : flags.isPresent = true) :
    Shape cover (Function.update kind f (.data (key * 512 + i.val))) (ram.set t i ⟨flags, f⟩) := by
  have hext := extends_update_data hf
  have ht' : Function.update kind f (.data (key * 512 + i.val)) t = .table 0 key :=
    hext.table ht
  refine Shape.set (hs.change hext fun t' i' => ?_) (fits_of_data ht' hp (Function.update_self f _ kind))
  by_cases hf' : t' = f
  · subst hf'
    refine .inr (fits_of_no_table fun level key' hin => ?_)
    exact hin.no_frame (.inr (Function.update_self ..))
  · exact .inl ⟨Function.update_of_ne hf' _ _, rfl⟩

end Shapes

/-! ## What mapping a page keeps -/

/-- What has become of an entry above the leaf: nothing, as no frame was left for a new table, or it has
got the flags of a link, and points to a new table if it was unused. -/
inductive Relinked (flags : Flags) (used : List Frame) (out : MapOutcome) (e e' : Entry) : Prop
  | failed (he : e = .unused) (he' : e' = .unused) (hresult : out.result = .error .frameAllocationFailed)
      (hframes : out.frames = [])
  | linked (w : Bool)
      (hflags : e'.flags = e.flags.union (tableFlags (w || flags.isWritable) flags.isUser))
      (hframe : e ≠ .unused → e'.frame = e.frame) (hnew : e = .unused → e'.frame ∈ used)

/-- The entry has the same frame, and it may have got flags, but not that of a large page. -/
def Gains (e e' : Entry) : Prop :=
  e'.frame = e.frame ∧ ∃ g : Flags, g.isHuge = false ∧ e'.flags = e.flags.union g

/-- The frames of an allocator are distinct and not in use. -/
structure Free (kind : Frame → Kind) (frames : List Frame) : Prop where
  nodup : frames.Nodup
  other : ∀ f ∈ frames, kind f = .other

/-- The frame `frame` is none of those of the allocator, and it is not in use but for that page. -/
structure Spare (kind : Frame → Kind) (page : Nat) (frame : Frame) (frames : List Frame) : Prop
    extends Free kind frames where
  apart : frame ∉ frames
  frame : kind frame = .other ∨ kind frame = .data (position 0 page)

/-- What mapping a page from its table `t` of a level on has done: `used` are the tables it has made. -/
structure MapEffect (cover : Frame → Fin 512 → Prop) (kind kind' : Frame → Kind) (page : Nat)
    (flags : Flags) (frame : Frame) (level : Nat) (t : Frame) (ram : Ram) (frames used : List Frame)
    (out : MapOutcome) : Prop where
  frames_eq : frames = used ++ out.frames
  shape : Shape cover kind' out.ram
  grown : ∀ f, f ∉ frame :: used → kind' f = kind f
  tables : ∀ f ∈ used, ∃ l k, kind' f = .table l k
  mapped : kind' frame = kind frame ∨ kind' frame = .data (position 0 page)
  changed : ∀ f j, out.ram f j ≠ ram f j →
    f ∈ used ∨ (f = t ∧ j = index level page) ∨ ∃ l k, l < level ∧ kind f = .table l k
  kept : ∀ f j, f ∉ used → ram f j ≠ .unused → Gains (ram f j) (out.ram f j)
  rights : flags.isWritable = true → ∀ f j, (f ∉ used ∧ out.ram f j = ram f j) ∨
    out.ram f j = .unused ∨ (out.ram f j).flags.isWritable = true
  written : ∀ s ∈ out.writes, ∃ f, kind' f ≠ .other ∧ s.Within (frameSpan f)
  entry : 0 < level → Relinked flags used out (ram t (index level page)) (out.ram t (index level page))
  walks : out.result = .ok () → ∃ tr, walk out.ram level t page = some tr ∧ tr.frame = frame ∧
    tr.writable = flags.isWritable

section Effects

variable {cover : Frame → Fin 512 → Prop} {kind kind' : Frame → Kind} {page : Nat} {frame : Frame}
  {flags : Flags} {level : Nat} {t f : Frame} {ram : Ram} {frames used : List Frame}
  {out : MapOutcome}

theorem Free.tail (h : Free kind (f :: frames)) : Free kind frames :=
  ⟨(List.nodup_cons.mp h.nodup).2, fun g hg => h.other g (List.mem_cons_of_mem _ hg)⟩

theorem Free.head_notMem (h : Free kind (f :: frames)) : f ∉ frames := (List.nodup_cons.mp h.nodup).1

/-- A frame is taken from the allocator. -/
theorem Free.take (h : Free kind (f :: frames)) : Spare kind page f frames :=
  ⟨h.tail, h.head_notMem, .inl (h.other f List.mem_cons_self)⟩

/-- A frame is taken from the allocator and used. -/
theorem Free.use (h : Free kind (f :: frames)) (k : Kind) :
    Free (Function.update kind f k) frames := by
  refine ⟨h.tail.nodup, fun g hg => ?_⟩
  have hne : g ≠ f := by
    rintro rfl
    exact h.head_notMem hg
  rw [Function.update_of_ne hne]
  exact h.tail.other g hg

theorem Spare.use (h : Spare kind page frame (f :: frames)) (k : Kind) :
    Spare (Function.update kind f k) page frame frames := by
  have happart := h.apart
  rw [List.mem_cons, not_or] at happart
  refine ⟨h.toFree.use k, happart.2, ?_⟩
  rw [Function.update_of_ne happart.1]
  exact h.frame

theorem Gains.refl (e : Entry) : Gains e e :=
  ⟨rfl, .empty, rfl, (Flags.union_empty e.flags).symm⟩

theorem leafOf_zero_frame (page : Nat) (e : Entry) : (leafOf 0 page e).frame = e.frame := by
  unfold leafOf
  rw [Nat.pow_zero, Nat.mod_one]
  exact BitVec.add_zero _

/-- The walk through an entry that points to a table. -/
theorem walk_through {e : Entry} (he : ram t (index (level + 1) page) = e)
    (hp : e.flags.isPresent = true) (hh : e.flags.isHuge = false) :
    walk ram (level + 1) t page = (walk ram level e.frame page).map (Translation.under e) := by
  rw [walk, he, hp, hh, if_pos rfl, if_neg Bool.false_ne_true]

/-- The step from a table to the one below it: the entry of the page in `t` is written and points to `g`, and
`extra` is the new table, if there is one. -/
structure LinkStep (cover : Frame → Fin 512 → Prop) (kind kind₁ : Frame → Kind) (page : Nat) (flags : Flags)
    (frame : Frame) (level : Nat) (t g : Frame) (ram ram₁ : Ram) (frames extra : List Frame) : Prop where
  holds : Holds cover kind (level + 1) page t
  spare : Spare kind page frame (extra ++ frames)
  below : kind₁ g = .table level (position (level + 1) page)
  kind_eq : ∀ f, f ∉ extra → kind₁ f = kind f
  extra_new : ∀ f ∈ extra, kind₁ f = .table level (position (level + 1) page) ∧ ∀ j, ram₁ f j = .unused
  ram_eq : ∀ f k, f ∉ extra → ¬ (f = t ∧ k = index (level + 1) page) → ram₁ f k = ram f k
  flags_eq : ∃ w, (ram₁ t (index (level + 1) page)).flags =
    (ram t (index (level + 1) page)).flags.union (tableFlags (w || flags.isWritable) flags.isUser)
  not_huge : (ram₁ t (index (level + 1) page)).flags.isHuge = false
  link : (ram₁ t (index (level + 1) page)).frame = g
  frame_eq : ram t (index (level + 1) page) ≠ .unused →
    (ram₁ t (index (level + 1) page)).frame = (ram t (index (level + 1) page)).frame
  new : ram t (index (level + 1) page) = .unused → g ∈ extra

section LinkSteps

variable {kind₁ : Frame → Kind} {ram₁ : Ram} {g : Frame} {extra : List Frame}

/-- The table is neither mapped nor new. -/
theorem LinkStep.root_apart (hl : LinkStep cover kind kind₁ page flags frame level t g ram ram₁ frames extra)
    (h : MapEffect cover kind₁ kind' page flags frame level g ram₁ frames used out) :
    t ≠ frame ∧ t ∉ extra ∧ t ∉ used := by
  refine ⟨?_, fun hin => ?_, fun hin => ?_⟩
  · rintro rfl
    exact hl.holds.no_frame hl.spare.frame
  · exact hl.holds.ne_other (hl.spare.other t (List.mem_append_left _ hin))
  · have hframes : t ∈ frames := h.frames_eq ▸ List.mem_append_left _ hin
    exact hl.holds.ne_other (hl.spare.other t (List.mem_append_right _ hframes))

/-- The new table keeps its place. -/
theorem LinkStep.extra_kind (hl : LinkStep cover kind kind₁ page flags frame level t g ram ram₁ frames extra)
    (h : MapEffect cover kind₁ kind' page flags frame level g ram₁ frames used out) :
    ∀ f ∈ extra, kind' f = .table level (position (level + 1) page) := by
  intro f hf
  refine (h.grown f fun hin => ?_).trans (hl.extra_new f hf).1
  rcases List.mem_cons.mp hin with rfl | hin
  · exact hl.spare.apart (List.mem_append_left _ hf)
  · have hframes : f ∈ frames := h.frames_eq ▸ List.mem_append_left _ hin
    exact (List.nodup_append.mp hl.spare.nodup).2.2 f hf f hframes rfl

/-- The tables below have other levels, so the entry is not written again. -/
theorem LinkStep.entry_eq (hl : LinkStep cover kind kind₁ page flags frame level t g ram ram₁ frames extra)
    (h : MapEffect cover kind₁ kind' page flags frame level g ram₁ frames used out) :
    out.ram t (index (level + 1) page) = ram₁ t (index (level + 1) page) := by
  obtain ⟨-, hextra, hused⟩ := hl.root_apart h
  have hlevel : ∀ l k, kind₁ t = .table l k → l = level + 1 := by
    intro l k hk
    rw [hl.kind_eq t hextra] at hk
    exact (hl.holds.unique (j := index (level + 1) page) (.inl hk)).1
  by_contra hne
  rcases h.changed t _ hne with hin | ⟨rfl, -⟩ | ⟨l, k, hlt, hk⟩
  · exact hused hin
  · have := hlevel _ _ hl.below
    omega
  · have := hlevel _ _ hk
    omega

theorem LinkStep.changed (hl : LinkStep cover kind kind₁ page flags frame level t g ram ram₁ frames extra)
    (h : MapEffect cover kind₁ kind' page flags frame level g ram₁ frames used out) {f : Frame}
    {k : Fin 512} (hne : out.ram f k ≠ ram f k) :
    f ∈ extra ++ used ∨ (f = t ∧ k = index (level + 1) page) ∨
      ∃ l k', l < level + 1 ∧ kind f = .table l k' := by
  by_cases hf : f ∈ extra
  · exact .inl (List.mem_append_left _ hf)
  · by_cases heq : f = t ∧ k = index (level + 1) page
    · exact .inr (.inl heq)
    · rw [← hl.ram_eq f k hf heq] at hne
      rcases h.changed f k hne with hin | ⟨rfl, -⟩ | ⟨l, k', hlt, hk⟩
      · exact .inl (List.mem_append_right _ hin)
      · exact .inr (.inr ⟨level, _, by omega, (hl.kind_eq f hf).symm.trans hl.below⟩)
      · exact .inr (.inr ⟨l, k', by omega, (hl.kind_eq f hf).symm.trans hk⟩)

theorem LinkStep.kept (hl : LinkStep cover kind kind₁ page flags frame level t g ram ram₁ frames extra)
    (h : MapEffect cover kind₁ kind' page flags frame level g ram₁ frames used out) {f : Frame}
    {k : Fin 512} (hf : f ∉ extra ++ used) (hne : ram f k ≠ .unused) : Gains (ram f k) (out.ram f k) := by
  rw [List.mem_append, not_or] at hf
  by_cases heq : f = t ∧ k = index (level + 1) page
  · obtain ⟨rfl, rfl⟩ := heq
    obtain ⟨w, hflags⟩ := hl.flags_eq
    rw [hl.entry_eq h]
    exact ⟨hl.frame_eq hne, _, tableFlags_isHuge _ _, hflags⟩
  · rw [← hl.ram_eq f k hf.1 heq] at hne ⊢
    exact h.kept f k hf.2 hne

theorem LinkStep.rights (hl : LinkStep cover kind kind₁ page flags frame level t g ram ram₁ frames extra)
    (h : MapEffect cover kind₁ kind' page flags frame level g ram₁ frames used out)
    (hw : flags.isWritable = true) (f : Frame) (j : Fin 512) :
    (f ∉ extra ++ used ∧ out.ram f j = ram f j) ∨ out.ram f j = .unused ∨
      (out.ram f j).flags.isWritable = true := by
  rcases h.rights hw f j with ⟨hf, heq⟩ | hnew
  · by_cases hin : f ∈ extra
    · exact .inr (.inl (heq.trans ((hl.extra_new f hin).2 j)))
    · by_cases hword : f = t ∧ j = index (level + 1) page
      · obtain ⟨rfl, rfl⟩ := hword
        obtain ⟨w, hflags⟩ := hl.flags_eq
        right
        right
        rw [hl.entry_eq h, hflags, Flags.isWritable_union, tableFlags_isWritable, hw, Bool.or_true,
          Bool.or_true]
      · refine .inl ⟨?_, heq.trans (hl.ram_eq f j hin hword)⟩
        rw [List.mem_append, not_or]
        exact ⟨hin, hf⟩
  · exact .inr hnew

theorem LinkStep.walks (hl : LinkStep cover kind kind₁ page flags frame level t g ram ram₁ frames extra)
    (h : MapEffect cover kind₁ kind' page flags frame level g ram₁ frames used out)
    (hok : out.result = .ok ()) : ∃ tr, walk out.ram (level + 1) t page = some tr ∧ tr.frame = frame ∧
      tr.writable = flags.isWritable := by
  obtain ⟨tr, hw, htr, hwritable⟩ := h.walks hok
  obtain ⟨w, hflags⟩ := hl.flags_eq
  have hpresent : (ram₁ t (index (level + 1) page)).flags.isPresent = true := by
    rw [hflags, Flags.isPresent_union, tableFlags_isPresent, Bool.or_true]
  refine ⟨tr.under (ram₁ t (index (level + 1) page)), ?_, htr, ?_⟩
  · rw [walk_through (hl.entry_eq h) hpresent hl.not_huge, hl.link, hw]
    rfl
  · show ((ram₁ t (index (level + 1) page)).flags.isWritable && tr.writable) = flags.isWritable
    rw [hwritable, hflags, Flags.isWritable_union, tableFlags_isWritable]
    cases flags.isWritable <;> simp

/-- What is done below a table is done from the table on. -/
theorem MapEffect.above {ws : List Span}
    (h : MapEffect cover kind₁ kind' page flags frame level g ram₁ frames used out)
    (hl : LinkStep cover kind kind₁ page flags frame level t g ram ram₁ frames extra)
    (hws : ∀ s ∈ ws, ∃ f ∈ t :: extra, s.Within (frameSpan f)) :
    MapEffect cover kind kind' page flags frame (level + 1) t ram (extra ++ frames) (extra ++ used)
      (out.after ws) := by
  obtain ⟨hframe, hextra, hused⟩ := hl.root_apart h
  constructor
  case frames_eq => rw [h.frames_eq, List.append_assoc]; rfl
  case shape => exact h.shape
  case grown =>
    intro f hf
    rw [List.mem_cons, List.mem_append, not_or, not_or] at hf
    rw [h.grown f, hl.kind_eq f hf.2.1]
    rw [List.mem_cons, not_or]
    exact ⟨hf.1, hf.2.2⟩
  case tables =>
    intro f hf
    rcases List.mem_append.mp hf with hf | hf
    · exact ⟨level, _, hl.extra_kind h f hf⟩
    · exact h.tables f hf
  case mapped =>
    rw [← hl.kind_eq frame fun hin => hl.spare.apart (List.mem_append_left _ hin)]
    exact h.mapped
  case changed => exact fun f k hne => hl.changed h hne
  case kept => exact fun f k hf hne => hl.kept h hf hne
  case rights => exact fun hw f j => hl.rights h hw f j
  case written =>
    intro s hs
    rcases List.mem_append.mp hs with hs | hs
    · obtain ⟨f, hf, hin⟩ := hws s hs
      refine ⟨f, ?_, hin⟩
      rcases List.mem_cons.mp hf with rfl | hf
      · rw [h.grown f, hl.kind_eq f hextra]
        · exact hl.holds.ne_other
        · rw [List.mem_cons, not_or]
          exact ⟨hframe, hused⟩
      · exact ne_other_of_table (hl.extra_kind h f hf)
    · exact h.written s hs
  case entry =>
    intro _
    obtain ⟨w, hflags⟩ := hl.flags_eq
    show Relinked _ _ _ _ (out.ram t (index (level + 1) page))
    rw [hl.entry_eq h]
    exact .linked w hflags hl.frame_eq fun hfree => hl.link ▸ List.mem_append_left _ (hl.new hfree)
  case walks =>
    intro hok
    have hwalks := hl.walks h hok
    exact hwalks

end LinkSteps

/-- An entry of the last level is written. -/
theorem MapEffect.leaf (hfree : ram t (index 0 page) = .unused) (hpresent : flags.isPresent = true)
    (hs : Shape cover kind ram) (ht : Holds cover kind 0 page t) (hspare : Spare kind page frame frames) :
    MapEffect cover kind (Function.update kind frame (.data (position 0 page))) page flags frame 0 t ram
      frames [] ⟨ram.set t (index 0 page) ⟨flags, frame⟩, frames, [entrySpan t (index 0 page)], .ok ()⟩ := by
  have ht0 : kind t = .table 0 (position 1 page) := by
    rcases ht with ht | ⟨hl, -⟩
    · exact ht
    · cases hl
  have hpos : position 1 page * 512 + (index 0 page).val = position 0 page :=
    position_succ page (by decide)
  have hframe := hspare.frame
  constructor
  case frames_eq => rfl
  case shape =>
    rw [← hpos] at hframe ⊢
    exact hs.map ht0 hframe hpresent
  case grown =>
    intro f hf
    refine Function.update_of_ne ?_ _ _
    rintro rfl
    exact hf List.mem_cons_self
  case tables => exact fun f hf => absurd hf List.not_mem_nil
  case mapped => exact .inr (Function.update_self ..)
  case changed =>
    intro f j hne
    by_cases heq : f = t ∧ j = index 0 page
    · exact .inr (.inl heq)
    · exact absurd (Ram.set_of_ne heq _) hne
  case kept =>
    intro f j _ hne
    show Gains _ (ram.set t (index 0 page) ⟨flags, frame⟩ f j)
    rw [Ram.set_of_ne]
    · exact Gains.refl _
    · rintro ⟨rfl, rfl⟩
      exact hne hfree
  case rights =>
    intro hw f j
    by_cases heq : f = t ∧ j = index 0 page
    · obtain ⟨rfl, rfl⟩ := heq
      right
      right
      show (ram.set f (index 0 page) ⟨flags, frame⟩ f (index 0 page)).flags.isWritable = true
      rw [Ram.set_self]
      exact hw
    · exact .inl ⟨List.not_mem_nil, Ram.set_of_ne heq _⟩
  case written =>
    intro s hs'
    rw [List.mem_singleton.mp hs']
    refine ⟨t, ?_, entrySpan_within t _⟩
    exact ne_other_of_table ((extends_update_data hframe).table ht0)
  case entry => exact fun hl => absurd hl (Nat.lt_irrefl 0)
  case walks =>
    intro _
    refine ⟨leafOf 0 page ⟨flags, frame⟩, ?_, leafOf_zero_frame page _, rfl⟩
    unfold walk
    dsimp only
    rw [Ram.set_self, if_pos hpresent]

/-- Nothing is written. -/
theorem MapEffect.nothing (hs : Shape cover kind ram) (hram : out.ram = ram) (hframes : out.frames = frames)
    (hwrites : out.writes = []) (hresult : out.result ≠ .ok ())
    (hentry : 0 < level → Relinked flags [] out (ram t (index level page)) (ram t (index level page))) :
    MapEffect cover kind kind page flags frame level t ram frames [] out := by
  constructor
  case frames_eq => exact hframes.symm
  case shape =>
    rw [hram]
    exact hs
  case grown => exact fun _ _ => rfl
  case tables => exact fun f hf => absurd hf List.not_mem_nil
  case mapped => exact .inl rfl
  case changed => exact fun f j hne => absurd (congrFun (congrFun hram f) j) hne
  case kept =>
    intro f j _ _
    rw [hram]
    exact Gains.refl _
  case rights => exact fun _ f j => .inl ⟨List.not_mem_nil, congrFun (congrFun hram f) j⟩
  case written =>
    rw [hwrites]
    exact fun s hs' => absurd hs' List.not_mem_nil
  case entry =>
    rw [hram]
    exact hentry
  case walks => exact fun hok => absurd hok hresult

/-- What mapping a page keeps, by induction on the levels. -/
theorem mapTo_effect (h : MapTo page frame flags level t ram frames out) :
    ∀ {kind : Frame → Kind}, level ≤ 3 → flags.isPresent = true → Shape cover kind ram →
      Holds cover kind level page t → Spare kind page frame frames →
      ∃ kind' used, MapEffect cover kind kind' page flags frame level t ram frames used out := by
  induction h with
  | @leaf t ram frames hfree => exact fun _ hpresent hs ht hspare => ⟨_, [], .leaf hfree hpresent hs ht hspare⟩
  | @used t ram frames hused =>
    exact fun _ _ hs _ _ => ⟨_, [], .nothing hs rfl rfl rfl (fun h => by cases h) fun hl => absurd hl (Nat.lt_irrefl 0)⟩
  | @exhausted level t ram hfree =>
    exact fun _ _ hs _ _ => ⟨_, [], .nothing hs rfl rfl rfl (fun h => by cases h) fun _ => .failed hfree hfree rfl rfl⟩
  | @create level t f ram frames out hfree w hrest ih =>
    intro kind hlevel hpresent hs ht hspare
    have hpos := position_succ page hlevel
    have hf : kind f = .other := hspare.other f List.mem_cons_self
    have htf : t ≠ f := by
      rintro rfl
      exact ht.ne_other hf
    have hkey : Function.update kind f (.table level (position (level + 1) page)) f =
        .table level (position (level + 1) page) := Function.update_self ..
    have hshape := hs.link ht hf (tableFlags_isPresent (w || flags.isWritable) flags.isUser)
      (tableFlags_isHuge _ _)
    rw [hpos] at hshape
    obtain ⟨kind', used, h⟩ := ih (by omega) hpresent hshape (.inl hkey)
      (hspare.use (.table level (position (level + 1) page)))
    have hlink : ((ram.set t (index (level + 1) page)
        ⟨tableFlags (w || flags.isWritable) flags.isUser, f⟩).setTable f fun _ => .unused) t
          (index (level + 1) page) = ⟨tableFlags (w || flags.isWritable) flags.isUser, f⟩ := by
      unfold Ram.setTable
      rw [Function.update_of_ne htf, Ram.set_self]
    have hstep : LinkStep cover kind (Function.update kind f (.table level (position (level + 1) page)))
        page flags frame level t f ram ((ram.set t (index (level + 1) page)
          ⟨tableFlags (w || flags.isWritable) flags.isUser, f⟩).setTable f fun _ => .unused) frames [f] := by
      constructor
      case holds => exact ht
      case spare => exact hspare
      case below => exact hkey
      case kind_eq => exact fun g hg => Function.update_of_ne (fun heq => hg (List.mem_singleton.mpr heq)) _ _
      case extra_new =>
        intro g hg
        rw [List.mem_singleton.mp hg]
        refine ⟨hkey, fun j => ?_⟩
        rw [Ram.setTable_self]
      case ram_eq =>
        intro g k hg hne
        rw [Ram.setTable_of_ne fun heq => hg (List.mem_singleton.mpr heq), Ram.set_of_ne hne]
      case flags_eq =>
        refine ⟨w, ?_⟩
        rw [hlink, hfree]
        exact (Flags.empty_union _).symm
      case not_huge =>
        rw [hlink]
        exact tableFlags_isHuge _ _
      case link => rw [hlink]
      case frame_eq => exact fun hne => absurd hfree hne
      case new => exact fun _ => List.mem_singleton.mpr rfl
    refine ⟨kind', [f] ++ used, h.above hstep fun s hs' => ?_⟩
    rcases List.mem_cons.mp hs' with rfl | hs'
    · exact ⟨t, List.mem_cons_self, entrySpan_within t _⟩
    · rw [List.mem_singleton.mp hs']
      exact ⟨f, List.mem_cons_of_mem _ List.mem_cons_self, Span.Within.refl _⟩
  | @huge level t ram frames e he hused hhuge w =>
    intro kind hlevel _ hs ht hspare
    -- tables of this shape have no such entry
    rcases hs.points hlevel ht with hu | ⟨-, hh, -⟩
    · exact absurd (he.symm.trans hu) hused
    · rw [he, hhuge] at hh
      cases hh
  | @descend level t ram frames out e he hused hhuge w hrest ih =>
    intro kind hlevel hpresent hs ht hspare
    obtain ⟨-, hk, hh', hshape⟩ := hs.relink hlevel ht he hused
      (tableFlags_isHuge (w || flags.isWritable) flags.isUser)
    obtain ⟨kind', used, h⟩ := ih (by omega) hpresent hshape (.inl hk) hspare
    have hstep : LinkStep cover kind kind page flags frame level t e.frame ram
        (ram.set t (index (level + 1) page)
          { e with flags := e.flags.union (tableFlags (w || flags.isWritable) flags.isUser) })
        frames [] := by
      constructor
      case holds => exact ht
      case spare => exact hspare
      case below => exact hk
      case kind_eq => exact fun _ _ => rfl
      case extra_new => exact fun f hf => absurd hf List.not_mem_nil
      case ram_eq => exact fun g k _ hne => Ram.set_of_ne hne _
      case flags_eq =>
        refine ⟨w, ?_⟩
        rw [Ram.set_self, he]
      case not_huge =>
        rw [Ram.set_self]
        exact hh'
      case link => rw [Ram.set_self]
      case frame_eq =>
        rw [Ram.set_self, he]
        exact fun _ => rfl
      case new => exact fun hfree => absurd (he.symm.trans hfree) hused
    refine ⟨kind', used, h.above hstep fun s hs' => ?_⟩
    rw [List.mem_singleton.mp hs']
    exact ⟨t, List.mem_cons_self, entrySpan_within t _⟩

theorem MapEffect.used_free
    (h : MapEffect cover kind kind' page flags frame level t ram frames used out)
    (hspare : Spare kind page frame frames) : ∀ f ∈ used, kind f = .other :=
  fun f hf => hspare.other f (h.frames_eq ▸ List.mem_append_left _ hf)

theorem MapEffect.extends
    (h : MapEffect cover kind kind' page flags frame level t ram frames used out)
    (hspare : Spare kind page frame frames) : Extends kind kind' := by
  intro f hf
  by_cases hframe : f = frame
  · subst hframe
    rcases h.mapped with hk | hk
    · exact hk
    · rw [hk, hspare.frame.resolve_left hf]
  · refine h.grown f fun hin => ?_
    rcases List.mem_cons.mp hin with heq | hin
    · exact hframe heq
    · exact hf (h.used_free hspare f hin)

theorem MapEffect.spare
    (h : MapEffect cover kind kind' page flags frame level t ram frames used out)
    (hspare : Spare kind page frame frames) : Spare kind' page frame out.frames := by
  have hsub : ∀ f ∈ out.frames, f ∈ frames := fun f hf => h.frames_eq ▸ List.mem_append_right _ hf
  have hnodup := hspare.nodup
  rw [h.frames_eq, List.nodup_append] at hnodup
  refine ⟨⟨hnodup.2.1, fun f hf => ?_⟩, fun hin => hspare.apart (hsub frame hin), ?_⟩
  · rw [h.grown f, hspare.other f (hsub f hf)]
    rw [List.mem_cons, not_or]
    constructor
    · rintro rfl
      exact hspare.apart (hsub f hf)
    · exact fun hin => hnodup.2.2 f hin f hf rfl
  · rcases h.mapped with hk | hk
    · rw [hk]
      exact hspare.frame
    · exact .inr hk

/-- A table that is not new is one that was known before. -/
theorem MapEffect.inner_old {l k : Nat} {i : Fin 512}
    (h : MapEffect cover kind kind' page flags frame level t ram frames used out)
    (hspare : Spare kind page frame frames) (hf : f ∉ used) (hin : Inner cover kind' l k f i) :
    Inner cover kind l k f i := by
  have hne : f ≠ frame := by
    rintro rfl
    exact hin.no_frame (h.spare hspare).frame
  have hkind : kind' f = kind f := h.grown f (by
    rw [List.mem_cons, not_or]
    exact ⟨hne, hf⟩)
  unfold Inner at hin ⊢
  rwa [hkind] at hin

/-- The entries of the roots stay, but for the one through which the page is mapped. -/
theorem MapEffect.root_eq {j : Fin 512} {r : Frame}
    (h : MapEffect cover kind kind' page flags frame level t ram frames used out)
    (hspare : Spare kind page frame frames) (hr : kind r = .root)
    (hne : ¬ (r = t ∧ j = index level page)) : out.ram r j = ram r j := by
  by_contra hch
  rcases h.changed r j hch with hin | heq | ⟨l, k, -, hk⟩
  · have hfree := h.used_free hspare r hin
    rw [hr] at hfree
    cases hfree
  · exact hne heq
  · rw [hr] at hk
    cases hk

/-- A frame that is mapped as a page is not written. -/
theorem MapEffect.data_eq {p : Nat} (h : MapEffect cover kind kind' page flags frame level t ram frames
    used out) (hspare : Spare kind page frame frames) (ht : Holds cover kind level page t)
    (hf : kind f = .data p) : out.ram f = ram f := by
  funext j
  by_contra hne
  rcases h.changed f j hne with hin | ⟨rfl, -⟩ | ⟨l, k, -, hk⟩
  · have hfree := h.used_free hspare f hin
    rw [hf] at hfree
    cases hfree
  · exact ht.no_frame (.inr hf)
  · rw [hf] at hk
    cases hk

theorem Relinked.present {e e' : Entry} {w : Bool}
    (h : e'.flags = e.flags.union (tableFlags (w || flags.isWritable) flags.isUser)) :
    e' ≠ .unused := by
  refine ne_unused_of_present ?_
  rw [h, Flags.isPresent_union, tableFlags_isPresent, Bool.or_true]

theorem Relinked.stays_used {e e' : Entry} (h : Relinked flags used out e e') (he : e ≠ .unused) :
    e' ≠ .unused := by
  cases h with
  | failed hfree => exact absurd hfree he
  | linked w hflags => exact Relinked.present hflags

theorem Relinked.user {e e' : Entry} (h : Relinked flags used out e e')
    (hu : e'.flags.isUser = true) : e.flags.isUser = true ∨ flags.isUser = true := by
  cases h with
  | failed _ he' =>
    rw [he'] at hu
    cases hu
  | linked w hflags =>
    rw [hflags, Flags.isUser_union, tableFlags_isUser, Bool.or_eq_true] at hu
    exact hu

end Effects

/-! ## Walks through tables of a shape -/

/-- All entries of known tables allow writing. -/
def AllWritable (cover : Frame → Fin 512 → Prop) (kind : Frame → Kind) (ram : Ram) : Prop :=
  ∀ t i l k, Inner cover kind l k t i → ram t i = .unused ∨ (ram t i).flags.isWritable = true

section Walks

variable {cover : Frame → Fin 512 → Prop} {kind : Frame → Kind} {ram ram' : Ram} {page : Nat}

theorem walk_used {level : Nat} {t : Frame} {tr : Translation}
    (h : walk ram level t page = some tr) : ram t (index level page) ≠ .unused := by
  intro hfree
  cases level <;>
  · unfold walk at h
    rw [hfree] at h
    cases h

/-- A walk ends in the last of its frames. -/
theorem walk_frame_mem : ∀ {level : Nat} {t : Frame} {tr : Translation},
    walk ram level t page = some tr → tr.frame ∈ walkFrames ram level t page
  | 0, t, tr, h => by
    obtain ⟨hp, h⟩ := Option.ite_none_right_eq_some.mp h
    cases h
    unfold walkFrames
    rw [if_pos hp]
    exact List.mem_singleton_self _
  | level + 1, t, tr, h => by
    obtain ⟨hp, h⟩ := Option.ite_none_right_eq_some.mp h
    unfold walkFrames
    rw [if_pos hp]
    rcases hh : (ram t (index (level + 1) page)).flags.isHuge with _ | _ <;> rw [hh] at h
    · rw [if_neg Bool.false_ne_true] at h ⊢
      obtain ⟨tr', htr, rfl⟩ := Option.map_eq_some_iff.mp h
      have hmem := walk_frame_mem htr
      exact List.mem_cons_of_mem _ hmem
    · rw [if_pos rfl] at h ⊢
      obtain ⟨-, h⟩ := Option.ite_none_right_eq_some.mp h
      cases h
      exact List.mem_singleton_self _

/-- A walk depends on its frames only. -/
theorem walk_of_walkFrames : ∀ {level : Nat} {t : Frame}, ram' t = ram t →
    (∀ f ∈ walkFrames ram level t page, ram' f = ram f) →
      walk ram' level t page = walk ram level t page
  | 0, t, ht, _ => by
    unfold walk
    rw [ht]
  | level + 1, t, ht, hframes => by
    rw [walk, walk, ht]
    rcases hp : (ram t (index (level + 1) page)).flags.isPresent with _ | _
    · rw [if_neg Bool.false_ne_true, if_neg Bool.false_ne_true]
    · rcases hh : (ram t (index (level + 1) page)).flags.isHuge with _ | _
      · unfold walkFrames at hframes
        rw [if_pos hp, hh, if_neg Bool.false_ne_true] at hframes
        rw [walk_of_walkFrames (hframes _ List.mem_cons_self) fun f hf =>
          hframes f (List.mem_cons_of_mem _ hf)]
      · rw [if_pos rfl, if_pos rfl, if_pos rfl, if_pos rfl]

theorem Regular.of_walkFrames : ∀ {level : Nat} {t : Frame}, Regular ram level t page → ram' t = ram t →
    (∀ f ∈ walkFrames ram level t page, ram' f = ram f) → Regular ram' level t page
  | 0, t, h, ht, _ => by
    unfold Regular
    rwa [ht]
  | level + 1, t, h, ht, hframes => by
    intro hp
    rw [ht] at hp ⊢
    have hbelow := h hp
    rcases hh : (ram t (index (level + 1) page)).flags.isHuge with _ | _
    · unfold walkFrames at hframes
      rw [if_pos hp, hh, if_neg Bool.false_ne_true] at hframes
      rw [hh, if_neg Bool.false_ne_true] at hbelow
      rw [if_neg Bool.false_ne_true]
      exact hbelow.of_walkFrames (hframes _ List.mem_cons_self) fun f hf =>
        hframes f (List.mem_cons_of_mem _ hf)
    · rwa [hh] at hbelow

/-- A walk through known tables depends on the known entries only. -/
theorem Shape.walk_congr (hs : Shape cover kind ram)
    (hsame : ∀ f i l k, Inner cover kind l k f i → ram' f i = ram f i) :
    ∀ {level : Nat} {t : Frame}, level ≤ 3 → Holds cover kind level page t →
      walk ram' level t page = walk ram level t page
  | 0, t, _, ht => by
    unfold walk
    rw [hsame t _ _ _ ht]
  | level + 1, t, hlevel, ht => by
    rcases hs.points hlevel ht with hu | ⟨hp, hh, hk⟩
    · unfold walk
      rw [hsame t _ _ _ ht, hu]
      rfl
    · rw [walk_through rfl hp hh, walk_through (hsame t _ _ _ ht) hp hh, hs.walk_congr hsame (by omega) (.inl hk)]

/-- A walk through known tables depends on these tables only. -/
theorem Shape.walk_kept (hs : Shape cover kind ram)
    (hsame : ∀ f i l k, Inner cover kind l k f i → ram' f = ram f) {level : Nat} {t : Frame} (hlevel : level ≤ 3)
    (ht : Holds cover kind level page t) : walk ram' level t page = walk ram level t page :=
  hs.walk_congr (fun f i l k hin => congrFun (hsame f i l k hin) i) hlevel ht

/-- A page that is mapped stays mapped to its frame as long as entries only gain flags. -/
theorem Shape.walk_gains (hs : Shape cover kind ram)
    (hgains : ∀ f i l k, Inner cover kind l k f i → ram f i ≠ .unused → Gains (ram f i) (ram' f i)) :
    ∀ {level : Nat} {t : Frame} {tr : Translation}, level ≤ 3 → Holds cover kind level page t →
      walk ram level t page = some tr → ∃ tr', walk ram' level t page = some tr' ∧
        tr'.frame = tr.frame ∧ (tr.writable = true → tr'.writable = true)
  | 0, t, tr, _, ht, h => by
    obtain ⟨hp, h⟩ := Option.ite_none_right_eq_some.mp h
    cases h
    obtain ⟨hframe, g, -, hflags⟩ := hgains t _ _ _ ht (ne_unused_of_present hp)
    refine ⟨leafOf 0 page (ram' t (index 0 page)), ?_, ?_, ?_⟩
    · unfold walk
      dsimp only
      rw [hflags, Flags.isPresent_union, hp]
      rfl
    · rw [leafOf_zero_frame, leafOf_zero_frame, hframe]
    · show (ram t (index 0 page)).flags.isWritable = true →
        (ram' t (index 0 page)).flags.isWritable = true
      intro hw
      rw [hflags, Flags.isWritable_union, hw, Bool.true_or]
  | level + 1, t, tr, hlevel, ht, h => by
    rcases hs.points hlevel ht with hu | ⟨hp, hh, hk⟩
    · exact absurd hu (walk_used h)
    · obtain ⟨hframe, g, hg, hflags⟩ := hgains t _ _ _ ht (ne_unused_of_present hp)
      rw [walk_through rfl hp hh] at h
      obtain ⟨tr₀, hw, rfl⟩ := Option.map_eq_some_iff.mp h
      obtain ⟨tr', hw', htr, hwritable⟩ := hs.walk_gains hgains (by omega) (.inl hk) hw
      have hp' : (ram' t (index (level + 1) page)).flags.isPresent = true := by
        rw [hflags, Flags.isPresent_union, hp, Bool.true_or]
      have hh' : (ram' t (index (level + 1) page)).flags.isHuge = false := by
        rw [hflags, Flags.isHuge_union, hh, hg]
        rfl
      refine ⟨tr'.under (ram' t (index (level + 1) page)), ?_, htr, ?_⟩
      · rw [walk_through rfl hp' hh', hframe, hw']
        rfl
      · show ((ram t _).flags.isWritable && tr₀.writable) = true →
          ((ram' t _).flags.isWritable && tr'.writable) = true
        rw [Bool.and_eq_true, Bool.and_eq_true, hflags, Flags.isWritable_union]
        rintro ⟨he, htr₀⟩
        exact ⟨by rw [he, Bool.true_or], hwritable htr₀⟩

/-- What holds of a page's own entry, and stays true under the entries above it, holds of the translation. -/
theorem Shape.walk_induction {P : Translation → Prop} (hs : Shape cover kind ram)
    (leaf : ∀ t, Holds cover kind 0 page t → ram t (index 0 page) ≠ .unused →
      P (leafOf 0 page (ram t (index 0 page))))
    (under : ∀ level t tr, Holds cover kind (level + 1) page t → ram t (index (level + 1) page) ≠ .unused →
      P tr → P (tr.under (ram t (index (level + 1) page)))) :
    ∀ {level : Nat} {t : Frame} {tr : Translation}, level ≤ 3 → Holds cover kind level page t →
      walk ram level t page = some tr → P tr
  | 0, t, tr, _, ht, h => by
    obtain ⟨hp, h⟩ := Option.ite_none_right_eq_some.mp h
    cases h
    exact leaf t ht (ne_unused_of_present hp)
  | level + 1, t, tr, hlevel, ht, h => by
    rcases hs.points hlevel ht with hu | ⟨hp, hh, hk⟩
    · exact absurd hu (walk_used h)
    · rw [walk_through rfl hp hh] at h
      obtain ⟨tr', htr, rfl⟩ := Option.map_eq_some_iff.mp h
      exact under level t tr' ht (ne_unused_of_present hp) (hs.walk_induction leaf under (by omega) (.inl hk) htr)

/-- A page that is mapped through known tables is mapped to a frame that is no table, and that is the
frame of this page only. -/
theorem Shape.walk_data (hs : Shape cover kind ram) {level : Nat} {t : Frame} {tr : Translation} (hlevel : level ≤ 3)
    (ht : Holds cover kind level page t) (h : walk ram level t page = some tr) :
    kind tr.frame = .data (position 0 page) := by
  refine hs.walk_induction (P := fun tr => kind tr.frame = .data (position 0 page)) (fun t ht hused => ?_)
    (fun _ _ _ _ _ hdata => hdata) hlevel ht h
  have ht0 : kind t = .table 0 (position 1 page) := by
    rcases ht with ht | ⟨hl, -⟩
    · exact ht
    · cases hl
  rw [leafOf_zero_frame]
  rcases (hs t (index 0 page)).leaf _ ht0 with hu | ⟨-, hd⟩
  · exact absurd hu hused
  · rwa [position_succ page (by decide)] at hd

/-- What a walk meets through known tables is regular. -/
theorem Shape.regular (hs : Shape cover kind ram) : ∀ {level : Nat} {t : Frame}, level ≤ 3 →
    Holds cover kind level page t → Regular ram level t page
  | 0, t, _, ht => by
    have ht0 : kind t = .table 0 (position 1 page) := by
      rcases ht with ht | ⟨hl, -⟩
      · exact ht
      · cases hl
    exact ((hs t (index 0 page)).leaf _ ht0).imp id And.left
  | level + 1, t, hlevel, ht => by
    intro hp
    rcases hs.points hlevel ht with hu | ⟨-, hh, hk⟩
    · rw [hu] at hp
      cases hp
    · rw [hh, if_neg Bool.false_ne_true]
      exact hs.regular (by omega) (.inl hk)

theorem AllWritable.mapTo {kind' : Frame → Kind} {flags : Flags} {frame t : Frame} {level : Nat}
    {frames used : List Frame} {out : MapOutcome} (h : AllWritable cover kind ram)
    (heffect : MapEffect cover kind kind' page flags frame level t ram frames used out)
    (hspare : Spare kind page frame frames) (hw : flags.isWritable = true) :
    AllWritable cover kind' out.ram := by
  intro t' i l k hin
  rcases heffect.rights hw t' i with ⟨hused, heq⟩ | hnew
  · rw [heq]
    exact h t' i l k (heffect.inner_old hspare hused hin)
  · exact hnew

theorem AllWritable.walk (h : AllWritable cover kind ram) (hs : Shape cover kind ram) {level : Nat} {t : Frame}
    {tr : Translation} (hlevel : level ≤ 3) (ht : Holds cover kind level page t)
    (hwalk : Paging.walk ram level t page = some tr) : tr.writable = true := by
  refine hs.walk_induction (P := fun tr => tr.writable = true) ?_ ?_ hlevel ht hwalk
  · exact fun t ht hused => (h t _ _ _ ht).resolve_left hused
  · intro level t tr ht hused htr
    show ((ram t _).flags.isWritable && tr.writable) = true
    rw [(h t _ _ _ ht).resolve_left hused, htr]
    rfl

end Walks

end Turnix.Lib.Paging
