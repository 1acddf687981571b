import WordTrace.Proofs.Footprint
import WordTrace.Proofs.Windows

/-! # Second rows cannot be left out

The second row of a division bears a mark: the flag of a zero modulus, or the inverse of any other.
The table asks for it wherever an operator that divides is selected, and no operation puts it in its
first row. So when the second row of an operation is lost, the row that comes to stand in its place
does not do.
-/

namespace WordTrace

/-- The flag is set or there is an inverse. -/
def Row.Marked (r : Row) : Prop :=
  r.get Layout.modulusIsZero ≠ 0 ∨ r.get Layout.modulusInverse ≠ 0

theorem Row.not_marked_iff {r : Row} :
    ¬r.Marked ↔ r.get Layout.modulusIsZero = 0 ∧ r.get Layout.modulusInverse = 0 := by
  rw [Marked, not_or, not_not, not_not]

theorem Row.not_marked_zero : ¬Row.zero.Marked :=
  not_marked_iff.mpr ⟨get_zero _, get_zero _⟩

theorem Remainder.marked {next : Row} {m r q p : List Felt}
    (h : Degenerate next m r q ∨ Proper next m r p) : next.Marked := by
  rcases h with hd | hp
  · left
    rw [hd.flag]
    exact one_ne_zero
  · right
    intro hzero
    have hinverse := hp.inverse
    rw [hzero, mul_zero] at hinverse
    exact zero_ne_one hinverse

theorem Operator.Holds.marked {op : Operator} {w : Window} (htwo : op.isTwoRow = true)
    (h : op.Holds w) : w.next.Marked := by
  rcases op with op | op
  · cases op
    case div | mod | shr => exact Remainder.marked h.division
    all_goals cases htwo
  · exact Remainder.marked h

namespace Operation

/-- The call that records an operation. -/
def call : Operation → Call
  | word o => match o.op with
    | .add | .sub | .lt | .gt => .chain o.op.selector.val o.first.val o.second.val
    | .mul => .product o.first.val o.second.val
    | .div | .mod => .division o.op.selector.val o.first.val o.second.val o.result.val
    | .shl => .shift .left o.first.val o.second.val o.result.val
    | .shr => .shift .right o.first.val o.second.val o.result.val
  | residue o => .residue o.op.selector.val o.first.val o.second.val o.modulus.val

theorem record_eq_call (o : Operation) : o.record = o.call.record := by
  rcases o with ⟨op, a, b, r, hr⟩ | o
  · cases op <;> rfl
  · rfl

/-- No call writes the mark into a first row, and there is none to begin with. -/
theorem row_not_marked {o : Operation} {rows : Rows} (h : o.rows = .ok rows) :
    ¬rows.row.Marked := by
  obtain ⟨outcome, p, hrun, hp⟩ := o.call.confined
  have hkept := (Call.keeps_of_within hp).modulus_current
  have hget {c : Column} (hc : c ∈ [Layout.modulusIsZero, Layout.modulusInverse]) :
      ((start o.operator).patch p).row.get c = 0 := by
    have hselectors : ∀ d ∈ Layout.selectors, c ≠ d := by
      revert c
      decide
    refine ((start o.operator).get_patch p .current c).trans ?_
    rw [hkept c hc]
    exact (Row.get_set_of_ne _ _ (hselectors _ (Selector.mem_selectors _))).trans (Row.get_zero c)
  rw [Operation.rows, record_eq_call, hrun] at h
  cases outcome with
  | error f => cases h
  | ok _ =>
    rw [← Except.ok.inj h]
    exact Row.not_marked_iff.mpr ⟨hget (by decide), hget (by decide)⟩

theorem exists_rows (o : Operation) : ∃ rows, o.rows = .ok rows ∧ ¬rows.row.Marked := by
  obtain ⟨rows, hrows, -⟩ := encodes_rows o
  exact ⟨rows, hrows, row_not_marked hrows⟩

/-- An operator that divides is recorded in two rows, and selected in the first. -/
theorem exists_two_rows {o : Operation} (htwo : o.operator.isTwoRow = true) :
    ∃ row next, o.rows = .ok ⟨row, some next⟩ ∧ row.get o.operator.selector = 1 := by
  obtain ⟨⟨row, next⟩, hrows, hencodes⟩ := encodes_rows o
  have hselector := hencodes.selectors _ (Selector.mem_selectors o.operator)
  rw [if_pos rfl] at hselector
  cases next with
  | some next => exact ⟨row, next, hrows, hselector⟩
  | none =>
    have hone := (isTwoRow_eq_false_iff _).mpr (hencodes.next_eq_none.mp rfl)
    rw [hone] at htwo
    cases htwo

end Operation

theorem exists_recordAll_not_marked (os : List Operation) :
    ∃ rows, recordAll os = .ok rows ∧ ∀ r ∈ rows, ¬r.row.Marked := by
  obtain ⟨rows, hrows, hall⟩ := exists_recordAll (f := id) Operation.exists_rows os
  exact ⟨rows, by rw [hrows, List.map_id], hall⟩

theorem recordAll_append_cons {before after : List Operation} {o : Operation}
    {first rest : List Rows} {r : Rows} (hbefore : recordAll before = .ok first)
    (ho : o.rows = .ok r) (hafter : recordAll after = .ok rest) :
    recordAll (before ++ o :: after) = .ok (first ++ r :: rest) := by
  rw [recordAll] at hbefore hafter ⊢
  rw [List.mapM_append, List.mapM_cons, hbefore, ho, hafter]
  rfl

/-- Before a first row, or at the end of the trace, there is no mark. -/
theorem not_marked_headD {rows : List Rows} (h : ∀ r ∈ rows, ¬r.row.Marked) :
    ¬((rows.flatMap Rows.toList).headD .zero).Marked := by
  cases rows with
  | nil => exact Row.not_marked_zero
  | cons r rows => exact h r List.mem_cons_self

theorem getElem?_windows (xs : List Row) (r : Row) (ys : List Row) :
    (windows (xs ++ r :: ys))[xs.length]? = some ⟨r, ys.headD .zero⟩ := by
  induction xs with
  | nil => rw [List.nil_append, windows_cons, List.length_nil, List.getElem?_cons_zero]
  | cons x xs ih =>
    rw [List.cons_append, windows_cons, List.length_cons, List.getElem?_cons_succ, ih]

theorem Table.marked_of_accepts {w : Window} {op : Operator} (htwo : op.isTwoRow = true)
    (hop : w.row.get op.selector = 1) (h : accepts w = true) : w.next.Marked :=
  (holds_of_accepts h hop).2.marked htwo

/-- Wherever an operator that divides is selected the table asks for a mark in the next row, and no
operation puts one in its first row. In a trace that has lost a second row, the window beginning at
the first row of the same operation is refused, whatever comes after. -/
theorem lost_row_detected :
    (∀ (op : Operator) (w : Window), op.isTwoRow = true → w.row.get op.selector = 1 →
      Table.accepts w = true → w.next.Marked) ∧
    (∀ o : Operation, ∃ rows, o.rows = .ok rows ∧ ¬rows.row.Marked) ∧
    ∀ (before : List Operation) (o : Operation) (after : List Operation),
      o.operator.isTwoRow = true → ∃ first row next rest,
        recordAll before = .ok first ∧ o.rows = .ok ⟨row, some next⟩ ∧
        recordAll (before ++ o :: after) = .ok (first ++ ⟨row, some next⟩ :: rest) ∧
        let all := (first ++ ⟨row, some next⟩ :: rest).flatMap Rows.toList
        let i := (first.flatMap Rows.toList).length
        all[i]? = some row ∧ all[i + 1]? = some next ∧
          ∃ w, (windows (all.eraseIdx (i + 1)))[i]? = some w ∧ w.row = row ∧
            Table.accepts w = false := by
  refine ⟨fun op w => Table.marked_of_accepts, Operation.exists_rows, ?_⟩
  intro before o after htwo
  obtain ⟨first, hbefore, -⟩ := exists_recordAll_not_marked before
  obtain ⟨rest, hafter, hmarked⟩ := exists_recordAll_not_marked after
  obtain ⟨row, next, ho, hselector⟩ := Operation.exists_two_rows htwo
  refine ⟨first, row, next, rest, hbefore, ho, recordAll_append_cons hbefore ho hafter, ?_⟩
  intro all i
  have hall : all = first.flatMap Rows.toList ++ row :: next :: rest.flatMap Rows.toList := by
    change List.flatMap Rows.toList (_ ++ _ :: _) = _
    rw [List.flatMap_append, List.flatMap_cons]
    rfl
  have hlost : all.eraseIdx (i + 1) =
      first.flatMap Rows.toList ++ row :: rest.flatMap Rows.toList := by
    rw [hall, List.eraseIdx_append_of_length_le (Nat.le_add_right i 1), Nat.add_sub_cancel_left]
    rfl
  refine ⟨?_, ?_, ⟨row, (rest.flatMap Rows.toList).headD .zero⟩, ?_, rfl, ?_⟩
  · rw [hall, List.getElem?_append_right (le_refl i), Nat.sub_self]
    rfl
  · rw [hall, List.getElem?_append_right (Nat.le_add_right i 1), Nat.add_sub_cancel_left]
    rfl
  · rw [hlost]
    exact getElem?_windows _ row _
  · apply Bool.eq_false_iff.mpr
    intro haccepts
    exact not_marked_headD hmarked (Table.marked_of_accepts htwo hselector haccepts)

/-- A division by zero does not stand in for the second row of the division before it. -/
theorem lost_row_detected_division :
    let o : Operation := .word (WordOp.operation .div ⟨100, by decide⟩ ⟨7, by decide⟩)
    let p : Operation := .word (WordOp.operation .mod ⟨5, by decide⟩ ⟨0, by decide⟩)
    o.operator.isTwoRow = true ∧ ∃ row next rest,
      recordAll [o, p] = .ok (⟨row, some next⟩ :: rest) ∧
        ∃ w ∈ windows (row :: rest.flatMap Rows.toList), w.row = row ∧ Table.accepts w = false := by
  intro o p
  have htwo : o.operator.isTwoRow = true := by decide
  obtain ⟨first, row, next, rest, hfirst, -, hall, -, -, w, hw, hrow, hrefused⟩ :=
    lost_row_detected.2.2 [] o [p] htwo
  obtain rfl : [] = first := Except.ok.inj hfirst
  exact ⟨htwo, row, next, rest, hall, w, List.mem_of_getElem? hw, hrow, hrefused⟩

end WordTrace
