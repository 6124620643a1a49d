import Mathlib.Data.Finset.Image
import Turnix.Lib.Paging

/-!
# Tables that grow from nothing

Page tables below unused entries of a root, built from the frames of an allocator by two kinds of steps: a new
table is linked (`Grown.create`), and a leaf is set (`Grown.addLeaf`). `Growth` is the bookkeeping, which
entries of each level are links and which are leaves, and `Grown` says that memory is exactly that: all
other entries are unused, no two tables share a frame, nothing else has changed, and one frame was taken for
each link. Mapping a page is a sequence of such steps (`Grown.mapTo`), and a walk to a leaf finds it
(`Grown.walk`).

An entry is given by its level and its `position`: the entry `p` of a level is in the table `p / 512` of this
level, at the index `p % 512`.
-/

namespace Turnix.Lib.Paging

/-! ## Positions -/

theorem position_div {level : Nat} (hlevel : level ≤ 3) (page : Nat) :
    position level page / 512 = position (level + 1) page := by
  have hpos := position_succ page hlevel
  have hi := (index level page).isLt
  omega

theorem ofNat_position {level : Nat} (hlevel : level ≤ 3) (page : Nat) :
    Fin.ofNat 512 (position level page) = index level page := by
  have hpos := position_succ page hlevel
  have hi := (index level page).isLt
  refine Fin.ext ?_
  show position level page % 512 = (index level page).val
  omega

/-! ## The bookkeeping -/

/-- What is given: the root and those of its entries that are used, memory and the frames of the allocator
before, the entry of each leaf, and the flags that a link may have. -/
structure Plot where
  root : Frame
  slots : Fin 512 → Prop
  before : Ram
  frames : List Frame
  leaf : Nat → Nat → Entry
  links : Flags → Prop
  unused : ∀ i, slots i → before root i = .unused
  apart : root ∉ frames
  nodup : frames.Nodup
  present : ∀ flags, links flags → flags.isPresent = true ∧ flags.isHuge = false

/-- The frame of each table, and the links and the leaves of each level. -/
structure Growth where
  table : Nat → Nat → Frame
  linked : Nat → Finset Nat
  leaves : Nat → Finset Nat

/-- The number of links. -/
def linkCount (linked : Nat → Finset Nat) : Nat :=
  (linked 1).card + (linked 2).card + (linked 3).card

/-- The number, by the three sets; a rewrite in `linkCount` itself would have the kernel compute them. -/
theorem linkCount_eq {linked : Nat → Finset Nat} {s₁ s₂ s₃ : Finset Nat} (h₁ : linked 1 = s₁)
    (h₂ : linked 2 = s₂) (h₃ : linked 3 = s₃) : linkCount linked = s₁.card + s₂.card + s₃.card := by
  rw [linkCount, h₁, h₂, h₃]

namespace Growth

/-- Nothing is linked. -/
def empty (root : Frame) : Growth := ⟨fun _ _ => root, fun _ => ∅, fun _ => ∅⟩

/-- There is a table for the entry. -/
def Has (g : Plot) (a : Growth) (l p : Nat) : Prop :=
  (l = 3 ∧ p < 512 ∧ g.slots (Fin.ofNat 512 p)) ∨ (l < 3 ∧ p / 512 ∈ a.linked (l + 1))

/-- The entry, in memory. -/
def entry (a : Growth) (ram : Ram) (l p : Nat) : Entry := ram (a.table l (p / 512)) (Fin.ofNat 512 p)

/-- The entry `p` above level `l` becomes a link to a table in `f`. -/
def link (a : Growth) (l p : Nat) (f : Frame) : Growth where
  table := Function.update a.table l (Function.update (a.table l) p f)
  linked := Function.update a.linked (l + 1) (insert p (a.linked (l + 1)))
  leaves := a.leaves

/-- The entry `p` of level `l` becomes a leaf. -/
def addLeaf (a : Growth) (l p : Nat) : Growth :=
  { a with leaves := Function.update a.leaves l (insert p (a.leaves l)) }

end Growth

/-- Memory and the allocator are as the bookkeeping says. -/
structure Grown (g : Plot) (a : Growth) (ram : Ram) (frames : List Frame) : Prop where
  root : ∀ k, a.table 3 k = g.root
  link : ∀ l p, p ∈ a.linked (l + 1) →
    g.links (a.entry ram (l + 1) p).flags ∧ (a.entry ram (l + 1) p).frame = a.table l p
  leaf : ∀ l p, p ∈ a.leaves l → a.entry ram l p = g.leaf l p
  bare : ∀ l p, a.Has g l p → p ∉ a.linked l → p ∉ a.leaves l → a.entry ram l p = .unused
  linked_has : ∀ l p, p ∈ a.linked l → 0 < l ∧ a.Has g l p
  leaves_has : ∀ l p, p ∈ a.leaves l → a.Has g l p ∧ p ∉ a.linked l
  injective : ∀ l p l' p', a.Has g l p → a.Has g l' p' → a.table l (p / 512) = a.table l' (p' / 512) →
    l = l' ∧ p / 512 = p' / 512
  rest : ∀ f j, (∀ l p, a.Has g l p → ¬ (f = a.table l (p / 512) ∧ j = Fin.ofNat 512 p)) →
    ram f j = g.before f j
  taken : ∃ taken, g.frames = taken ++ frames ∧ taken.length = linkCount a.linked ∧
    ∀ l p, l < 3 → a.Has g l p → a.table l (p / 512) ∈ taken

variable {g : Plot} {a : Growth} {ram : Ram} {frames : List Frame} {l p l' q : Nat} {f : Frame} {e : Entry}

theorem grown_empty (g : Plot) : Grown g (.empty g.root) g.before g.frames := by
  have hroot : ∀ {l p : Nat}, (Growth.empty g.root).Has g l p →
      l = 3 ∧ p < 512 ∧ g.slots (Fin.ofNat 512 p) := by
    rintro l p (h | ⟨-, h⟩)
    · exact h
    · exact absurd h (Finset.notMem_empty _)
  constructor
  case root => exact fun _ => rfl
  case link => exact fun l p h => absurd h (Finset.notMem_empty _)
  case leaf => exact fun l p h => absurd h (Finset.notMem_empty _)
  case bare => exact fun l p h _ _ => g.unused _ (hroot h).2.2
  case linked_has => exact fun l p h => absurd h (Finset.notMem_empty _)
  case leaves_has => exact fun l p h => absurd h (Finset.notMem_empty _)
  case injective =>
    intro l p l' p' h h' _
    obtain ⟨rfl, hp, -⟩ := hroot h
    obtain ⟨rfl, hp', -⟩ := hroot h'
    exact ⟨rfl, by omega⟩
  case rest => exact fun f j _ => rfl
  case taken =>
    refine ⟨[], rfl, rfl, fun l p hl h => ?_⟩
    obtain ⟨rfl, -⟩ := hroot h
    exact absurd hl (Nat.lt_irrefl 3)

/-! ## The sets of a link -/

theorem mem_linked_link : q ∈ (a.link l p f).linked l' ↔ q ∈ a.linked l' ∨ (l' = l + 1 ∧ q = p) := by
  unfold Growth.link
  dsimp only
  by_cases hl : l' = l + 1
  · subst hl
    rw [Function.update_self, Finset.mem_insert, or_comm, and_iff_right rfl]
  · rw [Function.update_of_ne hl, or_iff_left fun h => hl h.1]

theorem has_link (hl : l < 3) :
    (a.link l p f).Has g l' q ↔ a.Has g l' q ∨ (l' = l ∧ q / 512 = p) := by
  unfold Growth.Has
  rw [mem_linked_link, Nat.add_right_cancel_iff]
  constructor
  · rintro (h | ⟨hl', h | h⟩)
    · exact .inl (.inl h)
    · exact .inl (.inr ⟨hl', h⟩)
    · exact .inr h
  · rintro ((h | ⟨hl', h⟩) | ⟨rfl, h⟩)
    · exact .inl h
    · exact .inr ⟨hl', .inl h⟩
    · exact .inr ⟨hl, .inr ⟨rfl, h⟩⟩

theorem table_link_self : (a.link l p f).table l p = f := by
  unfold Growth.link
  dsimp only
  rw [Function.update_self, Function.update_self]

theorem table_link_of_ne {k : Nat} (h : ¬ (l' = l ∧ k = p)) :
    (a.link l p f).table l' k = a.table l' k := by
  unfold Growth.link
  dsimp only
  by_cases hl : l' = l
  · subst hl
    rw [Function.update_self, Function.update_of_ne fun hk => h ⟨rfl, hk⟩]
  · rw [Function.update_of_ne hl]

theorem linkCount_insert {linked : Nat → Finset Nat} (hl : l < 3) (hp : p ∉ linked (l + 1)) :
    linkCount (Function.update linked (l + 1) (insert p (linked (l + 1)))) = linkCount linked + 1 := by
  have hlevel : ∀ m, m = l + 1 → p ∉ linked m →
      linkCount (Function.update linked m (insert p (linked m))) = linkCount linked + 1 := by
    intro m hm hp
    have hcard := Finset.card_insert_of_notMem hp
    unfold linkCount
    obtain rfl | rfl | rfl : m = 1 ∨ m = 2 ∨ m = 3 := by omega
    all_goals
      rw [Function.update_self, Function.update_of_ne (by decide), Function.update_of_ne (by decide), hcard]
      omega
  exact hlevel (l + 1) rfl hp

/-! ## Steps -/

/-- The frames of the allocator are none of the tables. -/
theorem Grown.table_ne (h : Grown g a ram frames) (hq : a.Has g l' q) (hf : f ∈ frames) :
    a.table l' (q / 512) ≠ f := by
  rintro rfl
  obtain ⟨taken, hframes, -, htaken⟩ := h.taken
  rcases hq with ⟨rfl, hlt, hslot⟩ | ⟨hl, hq⟩
  · rw [h.root] at hf
    exact g.apart (hframes ▸ List.mem_append_right _ hf)
  · have hnodup := g.nodup
    rw [hframes] at hnodup
    exact List.disjoint_of_nodup_append hnodup (htaken l' q hl (.inr ⟨hl, hq⟩)) hf

/-- A store to one entry leaves the others. -/
theorem Grown.set_other (h : Grown g a ram frames) (hp : a.Has g l p) (hq : a.Has g l' q)
    (hne : ¬ (l' = l ∧ q = p)) (e : Entry) :
    a.entry (ram.set (a.table l (p / 512)) (Fin.ofNat 512 p) e) l' q = a.entry ram l' q := by
  refine Ram.set_of_ne ?_ e
  rintro ⟨htable, hindex⟩
  obtain ⟨rfl, hdiv⟩ := h.injective l' q l p hq hp htable
  have hmod : q % 512 = p % 512 := congrArg Fin.val hindex
  exact hne ⟨rfl, by omega⟩

theorem entry_set_self : a.entry (ram.set (a.table l (p / 512)) (Fin.ofNat 512 p) e) l p = e :=
  Ram.set_self ..

/-- The link gets other flags. -/
theorem Grown.relink (h : Grown g a ram frames) (hp : p ∈ a.linked (l + 1)) (hflags : g.links e.flags)
    (hframe : e.frame = a.table l p) :
    Grown g a (ram.set (a.table (l + 1) (p / 512)) (Fin.ofNat 512 p) e) frames := by
  have hhas := (h.linked_has _ _ hp).2
  constructor
  case root => exact h.root
  case link =>
    intro l' q hq
    by_cases heq : l' + 1 = l + 1 ∧ q = p
    · obtain ⟨hl, rfl⟩ := heq
      cases hl
      rw [entry_set_self]
      exact ⟨hflags, hframe⟩
    · rw [h.set_other hhas (h.linked_has _ _ hq).2 heq]
      exact h.link l' q hq
  case leaf =>
    intro l' q hq
    obtain ⟨hhas', hnot⟩ := h.leaves_has _ _ hq
    rw [h.set_other hhas hhas']
    · exact h.leaf l' q hq
    · rintro ⟨rfl, rfl⟩
      exact hnot hp
  case bare =>
    intro l' q hq hlinked hleaf
    rw [h.set_other hhas hq]
    · exact h.bare l' q hq hlinked hleaf
    · rintro ⟨rfl, rfl⟩
      exact hlinked hp
  case linked_has => exact h.linked_has
  case leaves_has => exact h.leaves_has
  case injective => exact h.injective
  case rest =>
    intro f j hout
    rw [Ram.set_of_ne (hout _ _ hhas)]
    exact h.rest f j hout
  case taken => exact h.taken

/-- A leaf is set, where nothing is or a leaf. -/
theorem Grown.addLeaf (h : Grown g a ram frames) (hhas : a.Has g l p) (hp : p ∉ a.linked l) :
    Grown g (a.addLeaf l p) (ram.set (a.table l (p / 512)) (Fin.ofNat 512 p) (g.leaf l p)) frames := by
  have hmem : ∀ {l' q : Nat}, q ∈ (a.addLeaf l p).leaves l' ↔ q ∈ a.leaves l' ∨ (l' = l ∧ q = p) := by
    intro l' q
    unfold Growth.addLeaf
    dsimp only
    by_cases hl : l' = l
    · subst hl
      rw [Function.update_self, Finset.mem_insert, or_comm, and_iff_right rfl]
    · rw [Function.update_of_ne hl, or_iff_left fun h => hl h.1]
  constructor
  case root => exact h.root
  case link =>
    intro l' q hq
    have hother := h.set_other hhas (h.linked_has _ _ hq).2 (e := g.leaf l p) (by
      rintro ⟨rfl, rfl⟩
      exact hp hq)
    show g.links (a.entry _ (l' + 1) q).flags ∧ (a.entry _ (l' + 1) q).frame = a.table l' q
    rw [hother]
    exact h.link l' q hq
  case leaf =>
    intro l' q hq
    show a.entry _ l' q = g.leaf l' q
    by_cases heq : l' = l ∧ q = p
    · obtain ⟨rfl, rfl⟩ := heq
      exact entry_set_self
    · have hq := (hmem.mp hq).resolve_right heq
      rw [h.set_other hhas (h.leaves_has _ _ hq).1 heq]
      exact h.leaf l' q hq
  case bare =>
    intro l' q hq hlinked hleaf
    show a.entry _ l' q = .unused
    rw [hmem, not_or] at hleaf
    rw [h.set_other hhas hq hleaf.2]
    exact h.bare l' q hq hlinked hleaf.1
  case linked_has => exact h.linked_has
  case leaves_has =>
    intro l' q hq
    rcases hmem.mp hq with hq | ⟨rfl, rfl⟩
    · exact h.leaves_has l' q hq
    · exact ⟨hhas, hp⟩
  case injective => exact h.injective
  case rest =>
    intro f j hout
    have hcell : ¬ (f = a.table l (p / 512) ∧ j = Fin.ofNat 512 p) := hout l p hhas
    rw [Ram.set_of_ne hcell]
    exact h.rest f j hout
  case taken => exact h.taken

/-- The tables that were there stay where they are when one is linked below another entry. -/
theorem table_link_of_has (hl : l < 3) (hp : p ∉ a.linked (l + 1)) {q : Nat} (hq : a.Has g l' q) :
    (a.link l p f).table l' (q / 512) = a.table l' (q / 512) := by
  refine table_link_of_ne ?_
  rintro ⟨rfl, hdiv⟩
  rcases hq with ⟨rfl, -⟩ | ⟨-, hq⟩
  · exact absurd hl (Nat.lt_irrefl 3)
  · exact hp (hdiv ▸ hq)

/-- What the entries are after a new table in `f` was linked: the link, the new table, and the others. -/
theorem Grown.entries_create (h : Grown g a ram (f :: frames)) (hl : l < 3) (hhas : a.Has g (l + 1) p)
    (hp : p ∉ a.linked (l + 1)) (e : Entry) :
    let ram' := (ram.set (a.table (l + 1) (p / 512)) (Fin.ofNat 512 p) e).setTable f fun _ => .unused
    (a.link l p f).entry ram' (l + 1) p = e ∧
      (∀ q, q / 512 = p → (a.link l p f).entry ram' l q = .unused) ∧
      ∀ l' q, a.Has g l' q → ¬ (l' = l + 1 ∧ q = p) →
        (a.link l p f).entry ram' l' q = a.entry ram l' q := by
  refine ⟨?_, fun q hq => ?_, fun l' q hq hne => ?_⟩
  · unfold Growth.entry
    rw [table_link_of_has hl hp hhas, Ram.setTable_of_ne (h.table_ne hhas List.mem_cons_self), Ram.set_self]
  · unfold Growth.entry
    rw [hq, table_link_self, Ram.setTable_self]
  · unfold Growth.entry
    rw [table_link_of_has hl hp hq, Ram.setTable_of_ne (h.table_ne hq List.mem_cons_self)]
    exact h.set_other hhas hq hne e

/-- The new table is none of the others. -/
theorem Grown.injective_create (h : Grown g a ram (f :: frames)) (hl : l < 3) (hp : p ∉ a.linked (l + 1)) :
    ∀ l₁ p₁ l₂ p₂, (a.link l p f).Has g l₁ p₁ → (a.link l p f).Has g l₂ p₂ →
      (a.link l p f).table l₁ (p₁ / 512) = (a.link l p f).table l₂ (p₂ / 512) →
      l₁ = l₂ ∧ p₁ / 512 = p₂ / 512 := by
  intro l₁ p₁ l₂ p₂ h₁ h₂ heq
  have hne : ∀ {l' q : Nat}, a.Has g l' q → a.table l' (q / 512) ≠ f :=
    fun hq => h.table_ne hq List.mem_cons_self
  rcases (has_link hl).mp h₁ with hold₁ | ⟨hl₁, hd₁⟩ <;>
    rcases (has_link hl).mp h₂ with hold₂ | ⟨hl₂, hd₂⟩
  · rw [table_link_of_has hl hp hold₁, table_link_of_has hl hp hold₂] at heq
    exact h.injective l₁ p₁ l₂ p₂ hold₁ hold₂ heq
  · rw [table_link_of_has hl hp hold₁, hl₂, hd₂, table_link_self] at heq
    exact absurd heq (hne hold₁)
  · rw [table_link_of_has hl hp hold₂, hl₁, hd₁, table_link_self] at heq
    exact absurd heq.symm (hne hold₂)
  · exact ⟨hl₁.trans hl₂.symm, hd₁.trans hd₂.symm⟩

/-- Only the entry of the link and the new table have changed. -/
theorem Grown.rest_create (h : Grown g a ram (f :: frames)) (hl : l < 3) (hhas : a.Has g (l + 1) p)
    (hp : p ∉ a.linked (l + 1)) (e : Entry) {f' : Frame} {j : Fin 512}
    (hout : ∀ l' q, (a.link l p f).Has g l' q →
      ¬ (f' = (a.link l p f).table l' (q / 512) ∧ j = Fin.ofNat 512 q)) :
    ((ram.set (a.table (l + 1) (p / 512)) (Fin.ofNat 512 p) e).setTable f fun _ => .unused) f' j =
      g.before f' j := by
  have hf : f' ≠ f := by
    rintro rfl
    have hj := j.isLt
    refine hout l (p * 512 + j.val) ((has_link hl).mpr (.inr ⟨rfl, by omega⟩)) ⟨?_, Fin.ext ?_⟩
    · rw [show (p * 512 + j.val) / 512 = p by omega, table_link_self]
    · show j.val = (p * 512 + j.val) % 512
      omega
  have hcell : ∀ l' q, a.Has g l' q → ¬ (f' = a.table l' (q / 512) ∧ j = Fin.ofNat 512 q) := by
    intro l' q hq
    have := hout l' q ((has_link hl).mpr (.inl hq))
    rwa [table_link_of_has hl hp hq] at this
  rw [Ram.setTable_of_ne hf, Ram.set_of_ne (hcell _ _ hhas)]
  exact h.rest f' j hcell

/-- A new table is linked. -/
theorem Grown.create (h : Grown g a ram (f :: frames)) (hl : l < 3) (hhas : a.Has g (l + 1) p)
    (hp : p ∉ a.linked (l + 1)) (hleaf : p ∉ a.leaves (l + 1)) (hflags : g.links e.flags)
    (hframe : e.frame = f) :
    Grown g (a.link l p f)
      ((ram.set (a.table (l + 1) (p / 512)) (Fin.ofNat 512 p) e).setTable f fun _ => .unused) frames := by
  obtain ⟨hlink, hnew, hother⟩ := h.entries_create hl hhas hp e
  constructor
  case root => exact fun k => (table_link_of_ne (by omega)).trans (h.root k)
  case link =>
    intro l' q hq
    by_cases heq : l' + 1 = l + 1 ∧ q = p
    · obtain ⟨hl', rfl⟩ := heq
      cases hl'
      rw [hlink, table_link_self]
      exact ⟨hflags, hframe⟩
    · have hq := (mem_linked_link.mp hq).resolve_right heq
      rw [hother _ _ (h.linked_has _ _ hq).2 heq, table_link_of_ne fun h => heq ⟨by rw [h.1], h.2⟩]
      exact h.link l' q hq
  case leaf =>
    intro l' q hq
    rw [hother l' q (h.leaves_has _ _ hq).1]
    · exact h.leaf l' q hq
    · rintro ⟨rfl, rfl⟩
      exact hleaf hq
  case bare =>
    intro l' q hq hlinked hleaf'
    rw [mem_linked_link, not_or] at hlinked
    rcases (has_link hl).mp hq with hq | ⟨rfl, hdiv⟩
    · rw [hother l' q hq hlinked.2]
      exact h.bare l' q hq hlinked.1 hleaf'
    · exact hnew q hdiv
  case linked_has =>
    intro l' q hq
    rw [has_link hl]
    rcases mem_linked_link.mp hq with hq | ⟨rfl, rfl⟩
    · obtain ⟨hpos, hhas'⟩ := h.linked_has l' q hq
      exact ⟨hpos, .inl hhas'⟩
    · exact ⟨Nat.succ_pos l, .inl hhas⟩
  case leaves_has =>
    intro l' q hq
    obtain ⟨hhas', hnot'⟩ := h.leaves_has l' q hq
    rw [has_link hl, mem_linked_link, not_or]
    refine ⟨.inl hhas', hnot', ?_⟩
    rintro ⟨rfl, rfl⟩
    exact hleaf hq
  case injective => exact h.injective_create hl hp
  case rest => exact fun f' j hout => h.rest_create hl hhas hp e hout
  case taken =>
    obtain ⟨taken, hframes, hlength, htaken⟩ := h.taken
    refine ⟨taken ++ [f], by rw [hframes, List.append_assoc]; rfl, ?_, fun l' q hl' hq => ?_⟩
    · rw [List.length_append, List.length_singleton, hlength, ← linkCount_insert hl hp]
      rfl
    · rcases (has_link hl).mp hq with hq | ⟨rfl, hdiv⟩
      · rw [table_link_of_has hl hp hq]
        exact List.mem_append_left _ (htaken l' q hl' hq)
      · rw [hdiv, table_link_self]
        exact List.mem_append_right _ (List.mem_singleton_self f)

/-! ## Mapping a page -/

/-- The links after a page was mapped, from a level on. -/
def growLinks (linked : Nat → Finset Nat) (page : Nat) : Nat → Nat → Finset Nat
  | 0 => linked
  | level + 1 => growLinks (Function.update linked (level + 1)
      (insert (position (level + 1) page) (linked (level + 1)))) page level

theorem subset_growLinks {page level l : Nat} : ∀ {linked : Nat → Finset Nat},
    linked l ⊆ growLinks linked page level l := by
  induction level with
  | zero => exact fun {linked} => Finset.Subset.refl (linked l)
  | succ level ih =>
    intro linked
    have hstep : linked l ⊆ Function.update linked (level + 1)
        (insert (position (level + 1) page) (linked (level + 1))) l := by
      by_cases hl : l = level + 1
      · subst hl
        rw [Function.update_self]
        exact Finset.subset_insert _ _
      · rw [Function.update_of_ne hl]
    exact Finset.Subset.trans hstep ih

theorem linkCount_mono {linked linked' : Nat → Finset Nat} (h : ∀ l, linked l ⊆ linked' l) :
    linkCount linked ≤ linkCount linked' := by
  have h1 := Finset.card_le_card (h 1)
  have h2 := Finset.card_le_card (h 2)
  have h3 := Finset.card_le_card (h 3)
  unfold linkCount
  omega

variable {page level : Nat} {frame t : Frame} {flags : Flags} {out : MapOutcome}

theorem Grown.frames_length (h : Grown g a ram frames) :
    g.frames.length = linkCount a.linked + frames.length := by
  obtain ⟨taken, hframes, hlength, -⟩ := h.taken
  rw [hframes, List.length_append, hlength]

theorem Grown.entry_ne_unused (h : Grown g a ram frames) (hp : p ∈ a.linked (l + 1)) :
    a.entry ram (l + 1) p ≠ .unused :=
  ne_unused_of_present (g.present _ (h.link l p hp).1).1

theorem Grown.linked_of_used (h : Grown g a ram frames) (hhas : a.Has g l p) (hleaf : p ∉ a.leaves l)
    (hused : a.entry ram l p ≠ .unused) : p ∈ a.linked l := by
  by_contra hp
  exact hused (h.bare l p hhas hp hleaf)

theorem entry_position (hlevel : level ≤ 3) (ht : t = a.table level (position level page / 512)) :
    a.entry ram level (position level page) = ram t (index level page) := by
  rw [Growth.entry, ← ht, ofNat_position hlevel]

theorem has_below (hlevel : level < 3) (hp : position (level + 1) page ∈ a.linked (level + 1)) :
    a.Has g level (position level page) := by
  refine .inr ⟨hlevel, ?_⟩
  rwa [position_div hlevel.le]

/-- Mapping a page where there is no leaf makes the links that are missing, unless the allocator does not
have the frames for all of them. -/
theorem Grown.mapTo (h : MapTo page frame flags level t ram frames out)
    (hnew : ∀ w, g.links (tableFlags (w || flags.isWritable) flags.isUser))
    (hold : ∀ w F, g.links F → g.links (F.union (tableFlags (w || flags.isWritable) flags.isUser)))
    (hentry : g.leaf 0 (position 0 page) = ⟨flags, frame⟩) :
    ∀ {a : Growth}, level ≤ 3 → Grown g a ram frames → a.Has g level (position level page) →
      t = a.table level (position level page / 512) → (∀ l ≤ level, position l page ∉ a.leaves l) →
      (out.result = .ok () ∧ ∃ a', Grown g a' out.ram out.frames ∧
        a'.linked = growLinks a.linked page level ∧ a'.leaves = (a.addLeaf 0 (position 0 page)).leaves) ∨
      (out.result = .error .frameAllocationFailed ∧ out.frames = [] ∧
        g.frames.length < linkCount (growLinks a.linked page level)) := by
  induction h with
  | @leaf t ram frames hfree =>
    intro a hlevel hgrown hhas ht _
    have hlinked : position 0 page ∉ a.linked 0 := fun hin => (hgrown.linked_has _ _ hin).1.false
    have hadded := hgrown.addLeaf hhas hlinked
    rw [← ht, ofNat_position hlevel, hentry] at hadded
    exact .inl ⟨rfl, _, hadded, rfl, rfl⟩
  | @used t ram frames hused =>
    intro a hlevel hgrown hhas ht hleaves
    have hlinked := hgrown.linked_of_used hhas (hleaves 0 (Nat.le_refl 0)) (entry_position hlevel ht ▸ hused)
    exact absurd (hgrown.linked_has _ _ hlinked).1 (Nat.lt_irrefl 0)
  | @exhausted level t ram hfree =>
    intro a hlevel hgrown hhas ht hleaves
    have hlinked : position (level + 1) page ∉ a.linked (level + 1) := fun hin =>
      hgrown.entry_ne_unused hin ((entry_position hlevel ht).trans hfree)
    refine .inr ⟨rfl, rfl, ?_⟩
    calc g.frames.length = linkCount a.linked := hgrown.frames_length
      _ < linkCount (Function.update a.linked (level + 1) (insert _ (a.linked (level + 1)))) := by
        rw [linkCount_insert (by omega) hlinked]
        exact Nat.lt_succ_self _
      _ ≤ linkCount (growLinks a.linked page (level + 1)) := linkCount_mono fun l => subset_growLinks
  | @create level t f ram frames out hfree w hrest ih =>
    intro a hlevel hgrown hhas ht hleaves
    have hlinked : position (level + 1) page ∉ a.linked (level + 1) := fun hin =>
      hgrown.entry_ne_unused hin ((entry_position hlevel ht).trans hfree)
    have hcreated := @Grown.create _ _ _ _ _ _ _
      ⟨tableFlags (w || flags.isWritable) flags.isUser, f⟩ hgrown (by omega) hhas hlinked
      (hleaves _ (Nat.le_refl _)) (hnew w) rfl
    rw [← ht, ofNat_position hlevel] at hcreated
    have hmem : position (level + 1) page ∈ (a.link level (position (level + 1) page) f).linked (level + 1) :=
      mem_linked_link.mpr (.inr ⟨rfl, rfl⟩)
    refine ih (by omega) hcreated (has_below (by omega) hmem) ?_ fun l hl => hleaves l (by omega)
    rw [position_div (by omega), table_link_self]
  | @huge level t ram frames e he hused hhuge w =>
    intro a hlevel hgrown hhas ht hleaves
    have hsame := (entry_position hlevel ht).trans he
    have hlinked := hgrown.linked_of_used hhas (hleaves _ (Nat.le_refl _)) (hsame ▸ hused)
    have hflags := (g.present _ (hgrown.link _ _ hlinked).1).2
    rw [hsame, hhuge] at hflags
    cases hflags
  | @descend level t ram frames out e he hused hhuge w hrest ih =>
    intro a hlevel hgrown hhas ht hleaves
    have hsame := (entry_position hlevel ht).trans he
    have hlinked := hgrown.linked_of_used hhas (hleaves _ (Nat.le_refl _)) (hsame ▸ hused)
    obtain ⟨hflags, hframe⟩ := hgrown.link _ _ hlinked
    rw [hsame] at hflags hframe
    have hrelinked := @Grown.relink _ _ _ _ _ _
      { e with flags := e.flags.union (tableFlags (w || flags.isWritable) flags.isUser) } hgrown hlinked
      (hold w _ hflags) hframe
    rw [← ht, ofNat_position hlevel] at hrelinked
    have hgrow : growLinks a.linked page (level + 1) = growLinks a.linked page level := by
      rw [growLinks, Finset.insert_eq_of_mem hlinked, Function.update_eq_self]
    rw [hgrow]
    refine ih (by omega) hrelinked (has_below (by omega) hlinked) ?_ fun l hl => hleaves l (by omega)
    rw [position_div (by omega), hframe]

/-! ## Walks -/

/-- The walk to a leaf of level `m`, from the table of the leaf on. -/
theorem Grown.walk_leaf (h : Grown g a ram frames) {m : Nat} (hm : m ≤ 3)
    (hleaf : position m page ∈ a.leaves m)
    (hpresent : (g.leaf m (position m page)).flags.isPresent = true)
    (hsize : m = 0 ∨ (m ≤ 2 ∧ (g.leaf m (position m page)).flags.isHuge = true)) :
    walk ram m (a.table m (position m page / 512)) page =
      some (leafOf m page (g.leaf m (position m page))) := by
  have hentry := (entry_position hm rfl).symm.trans (h.leaf m _ hleaf)
  cases m with
  | zero => rw [walk, hentry, if_pos hpresent]
  | succ m =>
    obtain ⟨hm2, hhuge⟩ := hsize.resolve_left (Nat.succ_ne_zero m)
    rw [walk, hentry, if_pos hpresent, if_pos hhuge, if_pos (by omega)]

/-- The walk to a leaf of level `m`, from a table above it on. -/
theorem Grown.walk_from (h : Grown g a ram frames) {m : Nat} (hleaf : position m page ∈ a.leaves m)
    (hpresent : (g.leaf m (position m page)).flags.isPresent = true)
    (hsize : m = 0 ∨ (m ≤ 2 ∧ (g.leaf m (position m page)).flags.isHuge = true)) : ∀ d, m + d ≤ 3 →
      a.Has g (m + d) (position (m + d) page) ∧
      ∃ tr, walk ram (m + d) (a.table (m + d) (position (m + d) page / 512)) page = some tr ∧
        tr.frame = (leafOf m page (g.leaf m (position m page))).frame
  | 0, hm => ⟨(h.leaves_has _ _ hleaf).1, _, h.walk_leaf hm hleaf hpresent hsize, rfl⟩
  | d + 1, hlevel => by
    obtain ⟨hhas, tr, hwalk, hframe⟩ := h.walk_from hleaf hpresent hsize d (by omega)
    have hlinked : position (m + d + 1) page ∈ a.linked (m + d + 1) := by
      rcases hhas with ⟨hroot, -⟩ | ⟨-, hin⟩
      · omega
      · rwa [position_div (by omega)] at hin
    obtain ⟨hflags, hbelow⟩ := h.link _ _ hlinked
    obtain ⟨hp, hh⟩ := g.present _ hflags
    rw [entry_position (show m + d + 1 ≤ 3 from hlevel) rfl] at hbelow hp hh
    have hthrough := walk_through rfl hp hh
    rw [position_div (by omega)] at hwalk
    rw [hbelow, hwalk] at hthrough
    exact ⟨(h.linked_has _ _ hlinked).2, _, hthrough, hframe⟩

/-- The walk to a leaf, from the root on. -/
theorem Grown.walk (h : Grown g a ram frames) {m : Nat} (hm : m ≤ 3) (hleaf : position m page ∈ a.leaves m)
    (hpresent : (g.leaf m (position m page)).flags.isPresent = true)
    (hsize : m = 0 ∨ (m ≤ 2 ∧ (g.leaf m (position m page)).flags.isHuge = true)) :
    ∃ tr, Paging.walk ram 3 g.root page = some tr ∧
      tr.frame = (leafOf m page (g.leaf m (position m page))).frame := by
  have hwalk := (h.walk_from hleaf hpresent hsize (3 - m) (by omega)).2
  rwa [show m + (3 - m) = 3 by omega, h.root] at hwalk

/-! ## Sets of pages -/

/-- The links for pages of one frame, and for large pages, whose leaves are of level 1. -/
def pageLinks (small large : Finset Nat) (l : Nat) : Finset Nat :=
  if l = 1 then small.image (position 1)
  else if l = 2 ∨ l = 3 then (small ∪ large).image (position l)
  else ∅

/-- The leaves of these pages. -/
def pageLeaves (small large : Finset Nat) (l : Nat) : Finset Nat :=
  if l = 0 then small.image (position 0) else if l = 1 then large.image (position 1) else ∅

/-- These pages are mapped, and no others. -/
def MapsPages (g : Plot) (small large : Finset Nat) (ram : Ram) (frames : List Frame) : Prop :=
  ∃ a, Grown g a ram frames ∧ a.linked = pageLinks small large ∧ a.leaves = pageLeaves small large

variable {small large small' large' : Finset Nat}

theorem pageLinks_one (small large : Finset Nat) : pageLinks small large 1 = small.image (position 1) :=
  if_pos rfl

theorem pageLinks_mono (hsmall : small ⊆ small') (hlarge : large ⊆ large') :
    linkCount (pageLinks small large) ≤ linkCount (pageLinks small' large') := by
  refine linkCount_mono fun l => ?_
  unfold pageLinks
  split
  · exact Finset.image_subset_image hsmall
  · split
    · exact Finset.image_subset_image (Finset.union_subset_union hsmall hlarge)
    · exact Finset.Subset.refl _

theorem mapsPages_empty (g : Plot) : MapsPages g ∅ ∅ g.before g.frames := by
  refine ⟨.empty g.root, grown_empty g, funext fun l => ?_, funext fun l => ?_⟩
  · unfold pageLinks
    rw [Finset.union_empty, Finset.image_empty, Finset.image_empty, ite_self, ite_self]
    rfl
  · unfold pageLeaves
    rw [Finset.image_empty, Finset.image_empty, ite_self, ite_self]
    rfl

theorem growLinks_apply {linked : Nat → Finset Nat} : growLinks linked page level l =
    if 0 < l ∧ l ≤ level then insert (position l page) (linked l) else linked l := by
  induction level generalizing linked with
  | zero => rw [growLinks, if_neg (by omega)]
  | succ level ih =>
    rw [growLinks, ih]
    by_cases hl : l = level + 1
    · subst hl
      rw [if_neg (by omega), if_pos (by omega), Function.update_self]
    · rw [Function.update_of_ne hl]
      exact if_congr (by omega) rfl rfl

theorem growLinks_pageLinks :
    growLinks (pageLinks small large) page 3 = pageLinks (insert page small) large := by
  funext l
  rw [growLinks_apply]
  unfold pageLinks
  by_cases h1 : l = 1
  · rw [if_pos (by omega), if_pos h1, if_pos h1, Finset.image_insert, h1]
  · rw [if_neg h1, if_neg h1]
    by_cases h23 : l = 2 ∨ l = 3
    · rw [if_pos (by omega), if_pos h23, if_pos h23, Finset.insert_union, Finset.image_insert]
    · rw [if_neg (by omega), if_neg h23, if_neg h23]

theorem pageLinks_insert_large :
    Function.update (Function.update (pageLinks small large) 3
        (insert (position 3 page) (pageLinks small large 3))) 2
      (insert (position 2 page) (pageLinks small large 2)) = pageLinks small (insert page large) := by
  have hgrown : ∀ {l}, l = 2 ∨ l = 3 → insert (position l page) (pageLinks small large l) =
      pageLinks small (insert page large) l := by
    intro l hl
    have h1 : l ≠ 1 := by omega
    unfold pageLinks
    rw [if_neg h1, if_neg h1, if_pos hl, if_pos hl, Finset.union_insert, Finset.image_insert]
  funext l
  by_cases h2 : l = 2
  · subst h2
    rw [Function.update_self, hgrown (.inl rfl)]
  rw [Function.update_of_ne h2]
  by_cases h3 : l = 3
  · subst h3
    rw [Function.update_self, hgrown (.inr rfl)]
  · have h23 : ¬ (l = 2 ∨ l = 3) := by omega
    rw [Function.update_of_ne h3]
    unfold pageLinks
    rw [if_neg h23, if_neg h23]

/-- A page is mapped. -/
theorem MapsPages.mapTo (h : MapsPages g small large ram frames)
    (hmap : MapTo page frame flags 3 g.root ram frames out)
    (hnew : ∀ w, g.links (tableFlags (w || flags.isWritable) flags.isUser))
    (hold : ∀ w F, g.links F → g.links (F.union (tableFlags (w || flags.isWritable) flags.isUser)))
    (hentry : g.leaf 0 (position 0 page) = ⟨flags, frame⟩) (hslot : g.slots (index 3 page))
    (hsmall : position 0 page ∉ small.image (position 0))
    (hlarge : position 1 page ∉ large.image (position 1)) :
    (out.result = .ok () ∧ MapsPages g (insert page small) large out.ram out.frames) ∨
      (out.result = .error .frameAllocationFailed ∧ out.frames = [] ∧
        g.frames.length < linkCount (pageLinks (insert page small) large)) := by
  obtain ⟨a, hgrown, hlinked, hleaves⟩ := h
  have hhas : a.Has g 3 (position 3 page) := by
    refine .inl ⟨rfl, ?_, ?_⟩
    · exact Nat.div_lt_of_lt_mul (Nat.mod_lt _ (by decide))
    · rwa [ofNat_position (Nat.le_refl 3)]
  have hnone : ∀ l ≤ 3, position l page ∉ a.leaves l := by
    intro l _
    rw [hleaves]
    unfold pageLeaves
    split
    · next hl => rwa [hl]
    · split
      · next hl => rwa [hl]
      · exact Finset.notMem_empty _
  rcases Grown.mapTo hmap hnew hold hentry (Nat.le_refl 3) hgrown hhas (hgrown.root _).symm hnone with
    ⟨hok, a', hgrown', hlinked', hleaves'⟩ | ⟨herror, hempty, hlt⟩
  · refine .inl ⟨hok, a', hgrown', ?_, ?_⟩
    · rw [hlinked', hlinked, growLinks_pageLinks]
    · rw [hleaves']
      unfold Growth.addLeaf
      dsimp only
      funext l
      rw [hleaves]
      by_cases hl : l = 0
      · subst hl
        rw [Function.update_self]
        exact (Finset.image_insert _ _ _).symm
      · rw [Function.update_of_ne hl]
        unfold pageLeaves
        rw [if_neg hl, if_neg hl]
  · rw [hlinked, growLinks_pageLinks] at hlt
    exact .inr ⟨herror, hempty, hlt⟩

end Turnix.Lib.Paging
