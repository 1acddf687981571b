import WordTrace.Proofs.Encoding

/-! # A trace is accepted when its blocks are

The table reads every row of a trace together with the one that follows. A row that selects no
operator of two rows is not concerned with its follower, and the second row of an operation selects
nothing, so that it is accepted before any row. What follows an operation in a trace is therefore
no matter, and operations can be recorded in any order.
-/

namespace WordTrace

/-- Every row of a trace with the one that follows, the last one alone. -/
def windows : List Row → List Window
  | [] => []
  | [r] => [.alone r]
  | r :: s :: rows => ⟨r, s⟩ :: windows (s :: rows)

theorem windows_cons (r : Row) (rows : List Row) :
    windows (r :: rows) = ⟨r, rows.headD .zero⟩ :: windows rows := by
  cases rows <;> rfl

/-- The table accepts a trace in every window. -/
def Accepted (rows : List Row) : Prop := ∀ w ∈ windows rows, Table.accepts w = true

theorem accepted_nil : Accepted [] := by
  intro w hw
  cases hw

theorem accepted_cons {r : Row} {rows : List Row} :
    Accepted (r :: rows) ↔ Table.accepts ⟨r, rows.headD .zero⟩ = true ∧ Accepted rows := by
  rw [Accepted, windows_cons, List.forall_mem_cons]
  rfl

/-- No operator of two rows is selected. -/
def Row.NeedsNoNext (r : Row) : Prop :=
  ∀ op : Operator, op.isTwoRow = true → r.get op.selector = 0

/-- One row that selects no operator of two rows, or two rows of which the second selects none. -/
inductive Block
  | single (row : Row) (h : row.NeedsNoNext)
  | pair (row next : Row) (h : next.SelectsNone)

def Block.rows : Block → Rows
  | single row _ => ⟨row, none⟩
  | pair row next _ => ⟨row, some next⟩

namespace Table

/-- A row that selects no operator of two rows has the same verdict before all others. -/
theorem accepts_congr_next {r : Row} (h : r.NeedsNoNext) (s t : Row) :
    accepts ⟨r, s⟩ = accepts ⟨r, t⟩ := by
  have hdivision (u : Row) : Vanish (Division.identities ⟨r, u⟩) := by
    rw [vanish_division_iff]
    exact ⟨.inl (h (.word .div) rfl), .inl (h (.word .mod) rfl), .inl (h (.word .shr) rfl)⟩
  have hresidue (u : Row) : Vanish (Residue.identities ⟨r, u⟩) := by
    rw [vanish_residue_iff]
    exact fun op => .inl (h (.residue op) rfl)
  apply Bool.eq_iff_iff.mpr
  rw [accepts_iff_vanish, accepts_iff_vanish]
  simp only [hdivision, hresidue]
  -- what is left are identities of the first row
  exact Iff.rfl

end Table

/-- Whatever follows a block, the windows that begin in it are accepted when the block is. -/
theorem Block.accepted_append (b : Block) (rest : List Row) :
    Accepted (b.rows.toList ++ rest) ↔ Table.accepts b.rows.window = true ∧ Accepted rest := by
  cases b with
  | single row h =>
    change Accepted (row :: rest) ↔ Table.accepts ⟨row, .zero⟩ = true ∧ Accepted rest
    rw [accepted_cons, Table.accepts_congr_next h _ .zero]
  | pair row next h =>
    change Accepted (row :: next :: rest) ↔ Table.accepts ⟨row, next⟩ = true ∧ Accepted rest
    rw [accepted_cons, accepted_cons, List.headD_cons]
    have hnext (s : Row) : Table.accepts ⟨next, s⟩ = true := Table.accepts_of_selectsNone h
    simp only [hnext, true_and]

theorem accepted_flatMap (blocks : List Block) :
    Accepted (blocks.flatMap (·.rows.toList)) ↔
      ∀ b ∈ blocks, Table.accepts b.rows.window = true := by
  induction blocks with
  | nil => simp [accepted_nil]
  | cons b blocks ih => rw [List.flatMap_cons, b.accepted_append, ih, List.forall_mem_cons]

namespace Operation

theorem kept (o : Operation) : o.Kept := by
  rcases o with o | o
  · rw [← word_operation o]
    exact kept_word o.op o.first o.second
  · rw [← residue_operation o]
    exact kept_residue o.op o.first o.second o.modulus

theorem Encodes.needsNoNext {o : Operation} {row : Row} (h : o.Encodes ⟨row, none⟩) :
    row.NeedsNoNext := by
  intro op htwo
  have hone := (isTwoRow_eq_false_iff _).mpr (h.next_eq_none.mp rfl)
  have hne : op ≠ o.operator := by
    rintro rfl
    rw [hone] at htwo
    cases htwo
  rw [h.selectors _ (Selector.mem_selectors op), if_neg (Selector.selector_injective.ne hne)]

/-- Every operation is recorded as a block that the table accepts. -/
theorem exists_block (o : Operation) :
    ∃ b : Block, o.rows = .ok b.rows ∧ Table.accepts b.rows.window = true := by
  obtain ⟨⟨row, next⟩, hrows, hencodes⟩ := encodes_rows o
  obtain ⟨rows, hrows', haccepts⟩ := o.kept.accepted
  obtain rfl : ⟨row, next⟩ = rows := Except.ok.inj (hrows.symm.trans hrows')
  cases next with
  | none => exact ⟨.single row hencodes.needsNoNext, hrows, haccepts⟩
  | some next => exact ⟨.pair row next (hencodes.next_selectors next rfl), hrows, haccepts⟩

end Operation

/-- Operations are recorded one after another, and what holds of the rows of each holds of all. -/
theorem exists_recordAll {α : Type} {f : α → Rows} {P : α → Prop}
    (h : ∀ o : Operation, ∃ a, o.rows = .ok (f a) ∧ P a) (os : List Operation) :
    ∃ as : List α, recordAll os = .ok (as.map f) ∧ ∀ a ∈ as, P a := by
  induction os with
  | nil => exact ⟨[], rfl, fun a ha => absurd ha List.not_mem_nil⟩
  | cons o os ih =>
    obtain ⟨a, hrows, ha⟩ := h o
    obtain ⟨as, hrest, hall⟩ := ih
    refine ⟨a :: as, ?_, List.forall_mem_cons.mpr ⟨ha, hall⟩⟩
    rw [recordAll] at hrest ⊢
    rw [List.mapM_cons, hrows, hrest]
    rfl

theorem exists_blocks (os : List Operation) :
    ∃ blocks : List Block, recordAll os = .ok (blocks.map Block.rows) ∧
      ∀ b ∈ blocks, Table.accepts b.rows.window = true :=
  exists_recordAll Operation.exists_block os

/-- A trace of blocks is accepted in every window if and only if every block is accepted on its own.
In particular the trace of any operations is, in the order in which they are given. -/
theorem accepted_iff_blocks :
    (∀ blocks : List Block, Accepted (blocks.flatMap (·.rows.toList)) ↔
      ∀ b ∈ blocks, Table.accepts b.rows.window = true) ∧
    ∀ os : List Operation, ∃ rows, recordAll os = .ok rows ∧
      Accepted (rows.flatMap (·.toList)) := by
  refine ⟨accepted_flatMap, ?_⟩
  intro os
  obtain ⟨blocks, hblocks, hall⟩ := exists_blocks os
  refine ⟨_, hblocks, ?_⟩
  rw [List.flatMap_map]
  exact (accepted_flatMap blocks).mpr hall

end WordTrace
