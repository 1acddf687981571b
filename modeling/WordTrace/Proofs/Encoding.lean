import WordTrace.Proofs.Completeness

/-! # Rows spell their operation

Every gadget computes its output anew, from the operands. What it records is nevertheless the
operation as it was given: the selectors name the operator, the registers spell operands and result.
So the operation can be read off its rows, and no two operations have the same rows.
-/

namespace WordTrace
open Limb (Fits cells)

theorem Row.signedValue_read {r : Row} {register : Register} {n : ℕ} {z : ℤ} (hz : Fits n z)
    (h : r.limbs register = Limb.cells n z) : (r.read register).signedValue = z := by
  change Limb.number (r.limbs register) = z
  rw [h, Limb.number_cells hz]

/-- What stands in the registers of the operands and in that of the output. -/
structure Row.Spells (r : Row) (first second third output : ℤ) : Prop where
  first : r.limbs Layout.operand0 = Limb.cells 2 first
  second : r.limbs Layout.operand1 = Limb.cells 2 second
  third : r.limbs Layout.operand2 = Limb.cells 2 third
  output : r.limbs Layout.output = Limb.cells 2 output

/-! What the gadgets leave in the registers. -/

theorem Chain.spells_filled {r : Row} (hr : r.limbs Layout.operand2 = cells 2 0) (a b : ℤ)
    (t : Terms) : (filled r a b t).Spells a b 0 t.output where
  first := limbs_operand0_filled r a b t
  second := limbs_operand1_filled r a b t
  third := (limbs_filled r a b t (by decide)).trans hr
  output := limbs_output_filled r a b t

theorem Residue.spells_written (r : Row) (a b m output quotient : ℤ) :
    (written r a b m output quotient).Spells a b m output where
  first := limbs_operand0_written r a b m output quotient
  second := limbs_operand1_written r a b m output quotient
  third := limbs_operand2_written r a b m output quotient
  output := limbs_output_written r a b m output quotient

namespace WordOp
variable {op : WordOp}

/-- What an operator on two words puts into the third register of operands, if anything. -/
def third? (op : WordOp) (a : ℤ) : Option ℤ :=
  if op.isShift then some (Shift.factor a) else none

theorem third?_of_terms {a b : ℤ} {t : Chain.Terms} (h : Chain.terms? a b op = some t) :
    op.third? a = none := by
  cases op <;> cases h <;> rfl

theorem spells_multiplied (h : op.Multiplies) {r : Row}
    (hr : r.limbs Layout.operand2 = cells 2 0) (a b : Word) :
    (op.multiplied r a b).Spells a.val b.val ((op.third? a.val).getD 0)
      (op.result a.val b.val) := by
  rcases h with rfl | rfl
  · constructor
    case third =>
      refine Eq.trans ?_ hr
      simp (disch := decide) only [multiplied, Product.limbs_filled, Row.limbs_write_of_disjoint]
    case output => exact Product.limbs_output_filled _ _ _
    all_goals
      simp (disch := decide) only [multiplied, Product.limbs_filled, Row.limbs_write_of_disjoint,
        Row.limbs_write_cells]
  · rw [result_shl]
    constructor
    case third =>
      exact (Product.limbs_filled _ _ _ (by decide)).trans
        (Row.limbs_write_cells _ _ (by decide) (by decide))
    case output => exact Product.limbs_output_filled _ _ _
    all_goals
      simp (disch := decide) only [multiplied, Product.limbs_filled, Shift.operands,
        Row.limbs_write_of_disjoint, Row.limbs_write_cells]

theorem limbs_words_operands (op : WordOp) (r : Row) (a b : ℤ) :
    (op.operands r a b).limbs Layout.operand0 = cells 2 a ∧
      (op.operands r a b).limbs Layout.operand1 = cells 2 b := by
  cases op <;> constructor <;>
    simp (disch := decide) only [operands, Shift.operands, Row.limbs_write_of_disjoint,
      Row.limbs_write_cells]

theorem spells_divided (h : op.Divides) {w : Window}
    (hw : w.row.limbs Layout.operand2 = cells 2 0) (a b : Word) :
    (op.divided w a b).row.Spells a.val b.val ((op.third? a.val).getD 0)
      (op.result a.val b.val) where
  first := (limbs_divided (by decide)).trans (limbs_words_operands op _ _ _).1
  second := (limbs_divided (by decide)).trans (limbs_words_operands op _ _ _).2
  third := by
    rw [limbs_divided (by decide)]
    rcases h with rfl | rfl | rfl
    · simp (disch := decide) only [operands, Row.limbs_write_of_disjoint, hw]
      rfl
    · simp (disch := decide) only [operands, Row.limbs_write_of_disjoint, hw]
      rfl
    · exact Row.limbs_write_cells _ _ (by decide) (by decide)
  output := Division.limbs_output_filled _ _ _ _

end WordOp

/-- The second row of a division is written beyond the selectors. -/
theorem Remainder.get_selector_filled {c : Column} (hc : c ∈ Layout.selectors) (next : Row)
    (carries : List Felt) (m r : ℤ) :
    (filled (if m = 0 then next else next.write Layout.productCarry carries) m r).get c =
      next.get c := by
  have hdisjoint : ∀ d ∈ Layout.selectors, d ∉ Layout.gap ∧ d ∉ Layout.productCarry ∧
      d ≠ Layout.modulusInverse ∧ d ≠ Layout.modulusIsZero := by decide
  obtain ⟨hgap, hcarry, hinverse, hflag⟩ := hdisjoint c hc
  by_cases hm : m = 0
  · rw [if_pos hm, filled, if_pos hm, Row.get_set_of_ne _ _ hflag]
  · rw [if_neg hm, filled, if_neg hm, Row.get_write_of_not_mem _ _ hgap,
      Row.get_set_of_ne _ _ hinverse, Row.get_write_of_not_mem _ _ hcarry]

namespace Operation

def first : Operation → Word
  | word o => o.first
  | residue o => o.first

def second : Operation → Word
  | word o => o.second
  | residue o => o.second

/-- The number in the third register of operands: the modulus, or the factor of a shift. -/
def third? : Operation → Option ℤ
  | word o => o.op.third? o.first.val
  | residue o => some o.modulus.val

/-- The operators recorded in one row. -/
def oneRow : List Operator :=
  [.word .add, .word .sub, .word .lt, .word .gt, .word .mul, .word .shl]

/-- Rows that spell an operation: its operator by the one selector that is set, its operands and its
result by the registers. A second row is there for the operators that divide and selects nothing. -/
structure Encodes (o : Operation) (rows : Rows) : Prop where
  selectors : ∀ c ∈ Layout.selectors,
    rows.row.get c = if c = o.operator.selector then 1 else 0
  first : (rows.row.read Layout.operand0).signedValue = o.first.val
  second : (rows.row.read Layout.operand1).signedValue = o.second.val
  third : ∀ z, o.third? = some z → (rows.row.read Layout.operand2).signedValue = z
  unused : o.third? = none → ∀ c ∈ Layout.operand2, rows.row.get c = 0
  result : (rows.row.read Layout.output).signedValue = o.result.val
  next_eq_none : rows.next = none ↔ o.operator ∈ oneRow
  next_selectors : ∀ next, rows.next = some next → ∀ c ∈ Layout.selectors, next.get c = 0

theorem isTwoRow_eq_false_iff (op : Operator) : op.isTwoRow = false ↔ op ∈ oneRow := by
  rcases op with op | op <;> cases op <;> decide

theorem limbs_operand2_start (op : Operator) :
    (start op).row.limbs Layout.operand2 = cells 2 0 := by
  have hop : op.selector ∉ Layout.operand2 := by rcases op with op | op <;> cases op <;> decide
  rw [start, Row.limbs_set_of_not_mem _ _ hop]
  rfl

theorem third_bounds {o : Operation} {z : ℤ} (h : o.third? = some z) : 0 ≤ z ∧ z < wordLimit := by
  rcases o with o | o
  · rw [third?, WordOp.third?] at h
    split at h
    · cases h
      exact Shift.factor_bounds _
    · cases h
  · cases h
    exact o.modulus.property

/-- Recording ends in a window that spells the operation. -/
structure Spelled (o : Operation) (v : Window) : Prop where
  records : o.Records v
  selects : v.row.Selects o.operator
  spells : v.row.Spells o.first.val o.second.val (o.third?.getD 0) o.result.val
  next : ∀ c ∈ Layout.selectors, v.next.get c = 0

theorem Spelled.encodes {o : Operation} {v : Window} (h : o.Spelled v) :
    o.Encodes ⟨v.row, if o.operator.isTwoRow then some v.next else none⟩ where
  selectors c hc := by
    obtain ⟨op, rfl⟩ := Selector.exists_operator hc
    have heq : o.operator = op ↔ op.selector = o.operator.selector :=
      eq_comm.trans Selector.selector_injective.eq_iff.symm
    rw [h.selects.get op]
    exact if_congr heq rfl rfl
  first := Row.signedValue_read (Fits.word _) h.spells.first
  second := Row.signedValue_read (Fits.word _) h.spells.second
  third z hz := by
    refine Row.signedValue_read (fits_of_bounds (third_bounds hz).1 (third_bounds hz).2) ?_
    rw [h.spells.third, hz, Option.getD_some]
  unused hnone := by
    have hthird := h.spells.third
    have hzero : cells 2 0 = Layout.operand2.map fun _ => (0 : Felt) := rfl
    rw [hnone, Option.getD_none, hzero] at hthird
    exact List.map_inj_left.mp hthird
  result := Row.signedValue_read (Fits.word _) h.spells.output
  next_eq_none := by
    rw [← isTwoRow_eq_false_iff]
    by_cases htwo : o.operator.isTwoRow = true <;> simp [htwo]
  next_selectors next hnext := by
    split at hnext
    · cases hnext
      exact h.next
    · cases hnext

/-- Recording ends in one window only. -/
theorem Records.unique {o : Operation} {v v' : Window} (h : o.Records v) (h' : o.Records v') :
    v = v' := (Prod.mk.inj (h.run.symm.trans h'.run)).2

/-- The selectors are kept by every gadget, so the registers are all that is to be looked at. -/
theorem Kept.spelled {o : Operation} {v : Window} (hkept : o.Kept) (hrecords : o.Records v)
    (hspells : v.row.Spells o.first.val o.second.val (o.third?.getD 0) o.result.val)
    (hnext : ∀ c ∈ Layout.selectors, v.next.get c = 0) : ∃ v, o.Spelled v := by
  obtain ⟨u, hu, hselects, -⟩ := hkept
  rw [hu.unique hrecords] at hselects
  exact ⟨v, hrecords, hselects, hspells, hnext⟩

variable {op : WordOp}

theorem spelled_of_terms {a b : Word} {t : Chain.Terms}
    (ht : Chain.terms? a.val b.val op = some t) : ∃ v, (word (op.operation a b)).Spelled v := by
  have hspells := Chain.spells_filled (limbs_operand2_start (.word op)) a.val b.val t
  refine (kept_of_terms ht).spelled (WordOp.records_of_terms ht) ?_ fun c _ => Row.get_zero c
  change Row.Spells _ a.val b.val ((op.third? a.val).getD 0) (op.result a.val b.val)
  rw [WordOp.third?_of_terms ht, ← WordOp.output_of_terms ht]
  exact hspells

theorem spelled_of_multiplies (h : op.Multiplies) (a b : Word) :
    ∃ v, (word (op.operation a b)).Spelled v :=
  (kept_of_multiplies h a b).spelled (WordOp.records_of_multiplies h a b)
    (WordOp.spells_multiplied h (limbs_operand2_start (.word op)) a b) fun c _ => Row.get_zero c

theorem spelled_of_divides (h : op.Divides) (a b : Word) :
    ∃ v, (word (op.operation a b)).Spelled v := by
  refine (kept_of_divides h a b).spelled (WordOp.records_of_divides h a b)
    (WordOp.spells_divided h (limbs_operand2_start (.word op)) a b) ?_
  intro c hc
  exact (Remainder.get_selector_filled hc _ _ _ _).trans (Row.get_zero c)

theorem spelled_word (op : WordOp) (a b : Word) :
    ∃ v, (word (op.operation a b)).Spelled v := by
  obtain ⟨t, ht⟩ | h | h := op.terms_or_multiplies_or_divides a.val b.val
  · exact spelled_of_terms ht
  · exact spelled_of_multiplies h a b
  · exact spelled_of_divides h a b

theorem spelled_residue (op : ResidueOp) (a b m : Word) :
    ∃ v, (residue (op.operation a b m)).Spelled v := by
  refine (kept_residue op a b m).spelled (op.records a b m)
    (Residue.spells_written _ _ _ _ _ _) ?_
  intro c hc
  exact (Remainder.get_selector_filled hc _ _ _ _).trans (Row.get_zero c)

/-- The result of an operation is no field of its own: operator and operands determine it. -/
theorem word_operation (o : WordOperation) : o.op.operation o.first o.second = o := by
  obtain ⟨op, a, b, r, hr⟩ := o
  obtain rfl : (op.operation a b).result = r := Subtype.ext hr.symm
  rfl

theorem residue_operation (o : ResidueOperation) :
    o.op.operation o.first o.second o.modulus = o := by
  obtain ⟨op, a, b, m, r, hr⟩ := o
  obtain rfl : (op.operation a b m).result = r := Subtype.ext hr.symm
  rfl

theorem exists_spelled (o : Operation) : ∃ v, o.Spelled v := by
  rcases o with o | o
  · rw [← word_operation o]
    exact spelled_word o.op o.first o.second
  · rw [← residue_operation o]
    exact spelled_residue o.op o.first o.second o.modulus

theorem encodes_rows (o : Operation) : ∃ rows, o.rows = .ok rows ∧ o.Encodes rows := by
  obtain ⟨v, hv⟩ := o.exists_spelled
  exact ⟨_, hv.records.rows, hv.encodes⟩

namespace Encodes
variable {o o' : Operation} {rows : Rows}

theorem operator_eq (h : o.Encodes rows) (h' : o'.Encodes rows) : o.operator = o'.operator := by
  have hmem := Selector.mem_selectors o.operator
  have hone := h.selectors _ hmem
  rw [if_pos rfl, h'.selectors _ hmem] at hone
  by_contra hne
  have hselector := Selector.selector_injective.ne hne
  rw [if_neg hselector] at hone
  exact absurd hone (by decide)

/-- Rows spell one operation at most. -/
theorem unique (h : o.Encodes rows) (h' : o'.Encodes rows) : o = o' := by
  have hop := h.operator_eq h'
  have hfirst : o.first = o'.first := Subtype.ext (h.first.symm.trans h'.first)
  have hsecond : o.second = o'.second := Subtype.ext (h.second.symm.trans h'.second)
  rcases o with o | o <;> rcases o' with o' | o'
  · have hop : o.op = o'.op := Operator.word.inj hop
    change o.first = o'.first at hfirst
    change o.second = o'.second at hsecond
    rw [← word_operation o, ← word_operation o', hop, hfirst, hsecond]
  · exact Operator.noConfusion hop
  · exact Operator.noConfusion hop
  · have hop : o.op = o'.op := Operator.residue.inj hop
    have hmodulus : o.modulus = o'.modulus :=
      Subtype.ext ((h.third _ rfl).symm.trans (h'.third _ rfl))
    change o.first = o'.first at hfirst
    change o.second = o'.second at hsecond
    rw [← residue_operation o, ← residue_operation o', hop, hfirst, hsecond, hmodulus]

end Encodes

/-- Every operation has rows that spell it, and no other operation has the same rows. -/
theorem rows_faithful :
    (∀ o : Operation, ∃ rows, o.rows = .ok rows ∧ o.Encodes rows) ∧
      Function.Injective Operation.rows := by
  refine ⟨encodes_rows, ?_⟩
  intro o o' h
  obtain ⟨rows, hrows, hencodes⟩ := encodes_rows o
  obtain ⟨rows', hrows', hencodes'⟩ := encodes_rows o'
  rw [hrows, hrows'] at h
  cases h
  exact hencodes.unique hencodes'

end Operation
end WordTrace
