import Turnix.Lib.Paging

/-!
# Trees of page tables

The tables below one entry, without the bookkeeping of `Shape`: a table may be shared between entries, and
nothing is known of the frames at the leaves. What holds of a tree depends on the contents of its tables
only, so it stays as long as these stay (`Tree.congr`, `TableOf.congr`, `walk_congr`).
-/

namespace Turnix.Lib.Paging

/-- The entries above the leaves, in the tree of `level` levels below `e`, are unused or point to a table.
Nothing is asked of the leaves. -/
def Tree (ram : Ram) : Nat → Entry → Prop
  | 0, _ => True
  | level + 1, e => e.flags.isPresent = true ∧ e.flags.isHuge = false ∧
    ∀ i, ram e.frame i = .unused ∨ Tree ram level (ram e.frame i)

/-- The frame is a table of the tree below `e`. -/
def TableOf (ram : Ram) : Nat → Entry → Frame → Prop
  | 0, _, _ => False
  | level + 1, e, f => f = e.frame ∨ ∃ i, ram e.frame i ≠ .unused ∧ TableOf ram level (ram e.frame i) f

variable {ram ram' : Ram} {level page : Nat} {e : Entry} {f t : Frame} {i : Fin 512}

theorem TableOf.root : TableOf ram (level + 1) e e.frame := .inl rfl

theorem TableOf.below (hi : ram e.frame i ≠ .unused) (h : TableOf ram level (ram e.frame i) f) :
    TableOf ram (level + 1) e f := .inr ⟨i, hi, h⟩

theorem Tree.congr : ∀ {level : Nat} {e : Entry}, (∀ f, TableOf ram level e f → ram' f = ram f) →
    Tree ram level e → Tree ram' level e
  | 0, _, _, _ => trivial
  | level + 1, e, hsame, ⟨hp, hh, h⟩ => by
    refine ⟨hp, hh, fun i => ?_⟩
    rw [hsame _ .root]
    by_cases hi : ram e.frame i = .unused
    · exact .inl hi
    · exact .inr (Tree.congr (fun f hf => hsame f (.below hi hf)) ((h i).resolve_left hi))

theorem TableOf.congr : ∀ {level : Nat} {e : Entry}, (∀ f, TableOf ram level e f → ram' f = ram f) →
    TableOf ram' level e f → TableOf ram level e f
  | 0, _, _, h => h
  | level + 1, e, hsame, h => by
    rcases h with rfl | ⟨i, hi, h⟩
    · exact .root
    · rw [hsame _ .root] at hi h
      exact .below hi (TableOf.congr (fun f hf => hsame f (.below hi hf)) h)

/-- A walk through tables that have not changed. -/
theorem walk_congr : ∀ {level : Nat} {t : Frame}, ram' t (index level page) = ram t (index level page) →
    (ram t (index level page) ≠ .unused →
      ∀ f, TableOf ram level (ram t (index level page)) f → ram' f = ram f) →
    walk ram' level t page = walk ram level t page
  | 0, t, ht, _ => by
    rw [walk, walk, ht]
  | level + 1, t, ht, hsame => by
    rw [walk, walk, ht]
    by_cases hp : (ram t (index (level + 1) page)).flags.isPresent = true
    · have hsame := hsame (ne_unused_of_present hp)
      have hroot := hsame _ .root
      rw [walk_congr (congrFun hroot _) fun hi f hf => hsame f (.below hi hf)]
    · rw [if_neg hp, if_neg hp]

/-! ## The tables of a walk -/

/-- The tables that a walk reads. -/
def walkTables (ram : Ram) : Nat → Frame → Nat → List Frame
  | 0, t, _ => [t]
  | level + 1, t, page =>
    let e := ram t (index (level + 1) page)
    t :: if e.flags.isPresent ∧ ¬ e.flags.isHuge then walkTables ram level e.frame page else []

theorem head_mem_walkTables (level : Nat) (t : Frame) (page : Nat) : t ∈ walkTables ram level t page := by
  cases level <;> exact List.mem_cons_self

theorem walkTables_unused (h : ram t (index (level + 1) page) = .unused) :
    walkTables ram (level + 1) t page = [t] := by
  rw [walkTables, h]
  rfl

/-- A walk depends on the tables that it reads, below the first entry. -/
theorem walk_of_walkTables : ∀ {level : Nat} {t t' : Frame},
    ram' t' (index level page) = ram t (index level page) →
    (∀ f ∈ (walkTables ram level t page).tail, ram' f = ram f) →
      walk ram' level t' page = walk ram level t page
  | 0, t, t', ht, _ => by rw [walk, walk, ht]
  | level + 1, t, t', ht, hsame => by
    rw [walk, walk, ht]
    by_cases hp : (ram t (index (level + 1) page)).flags.isPresent = true
    · rcases hh : (ram t (index (level + 1) page)).flags.isHuge with _ | _
      · rw [walkTables, List.tail_cons, if_pos ⟨hp, by rw [hh]; decide⟩] at hsame
        have hroot := hsame _ (head_mem_walkTables _ _ _)
        rw [walk_of_walkTables (congrFun hroot _) fun f hf => hsame f (List.mem_of_mem_tail hf)]
      · rw [if_pos rfl, if_pos rfl]
    · rw [if_neg hp, if_neg hp]

end Turnix.Lib.Paging
