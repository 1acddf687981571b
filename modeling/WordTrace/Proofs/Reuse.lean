import WordTrace.Proofs.Encoding

/-! # Gadgets on windows that were used before

A gadget writes every column that the identities of its operator read, so what stood in a window
before does not matter. The one exception is the flag of a zero modulus: it is set and never
cleared, and after a division by zero it spoils every division recorded over the same rows, unless
that too is one by zero. Then the carries, the gap and the inverse stay as they were, and no
identity asks for them.
-/

namespace WordTrace.Operation

/-- Every operation is recorded by its gadget on some window, whatever the window holds. -/
theorem exists_leaves (o : Operation) {w : Window} (hw : w.row.Selects o.operator) :
    ∃ v, o.Leaves w v := by
  rcases o with o | o
  · have ho := word_operation o
    obtain ⟨t, ht⟩ | h | h := o.op.terms_or_multiplies_or_divides o.first.val o.second.val
    · exact ⟨_, ho ▸ leaves_of_terms hw ht⟩
    · exact ⟨_, ho ▸ leaves_of_multiplies hw h o.first o.second⟩
    · exact ⟨_, ho ▸ leaves_of_divides hw h o.first o.second⟩
  · exact ⟨_, residue_operation o ▸ leaves_residue hw o.first o.second o.modulus⟩

/-- Over any window that selects its operator an operation is recorded, and the table accepts it if
it takes one row. An operation of two rows is accepted when the flag was not set before or its
divisor is zero, and otherwise it is not. -/
theorem accepted_on_used (o : Operation) {w : Window} (hw : w.row.Selects o.operator) :
    ∃ v, o.record.on w = (.ok (), v) ∧
      (o.operator ∈ oneRow → Table.accepts v = true) ∧
      (o.operator ∉ oneRow → (Table.accepts v = true ↔
        o.divisor = 0 ∨ w.next.get Layout.modulusIsZero = 0)) := by
  obtain ⟨v, hleaves⟩ := o.exists_leaves hw
  have haccepts := (Table.accepts_iff_of_selects hleaves.selects).trans hleaves.holds_iff
  refine ⟨v, hleaves.run, ?_, ?_⟩
  · intro hone
    apply haccepts.mpr
    intro htwo
    rw [(isTwoRow_eq_false_iff o.operator).mpr hone] at htwo
    exact Bool.noConfusion htwo
  · intro hone
    have htwo : o.operator.isTwoRow = true :=
      Bool.eq_true_of_not_eq_false (mt (isTwoRow_eq_false_iff o.operator).mp hone)
    exact haccepts.trans (forall_prop_of_true htwo)

/-- The rows of a division by zero are no place for a division by seven. -/
theorem accepted_on_used_flagged :
    let five : Word := ⟨5, by decide⟩
    let hundred : Word := ⟨100, by decide⟩
    let w := WordOp.divided .div (start (.word .div)) five ⟨0, by decide⟩
    let o : Operation := .word (WordOp.operation .div hundred ⟨7, by decide⟩)
    w.row.Selects o.operator ∧ ∃ v, o.record.on w = (.ok (), v) ∧ Table.accepts v = false := by
  intro five hundred w o
  have hw : w.row.Selects o.operator := WordOp.selects_divided (selects_start _) _ _
  obtain ⟨v, hrun, -, haccepts⟩ := accepted_on_used o hw
  refine ⟨hw, v, hrun, ?_⟩
  apply Bool.eq_false_iff.mpr
  intro h
  rcases (haccepts (by decide)).mp h with hzero | hflag
  · exact absurd hzero (by decide)
  · exact absurd hflag (by decide +kernel)

end WordTrace.Operation
