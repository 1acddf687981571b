import WordTrace.Proofs.Completeness

/-! # What the verdict on a window depends on

At most one selector is set, or the table rejects. With none set everything is accepted, and with
one set the verdict is read off the columns of that operator: whatever stands in the others, in
either row, makes no difference.
-/

namespace WordTrace

namespace Selector
variable {w : Window}

/-- Where the selectors are in order, one that is not zero names its operator. -/
theorem exists_selects (h : Vanish (identities w)) {c : Column} (hc : c ∈ Layout.selectors)
    (hne : w.row.get c ≠ 0) : ∃ op, w.row.Selects op := by
  obtain ⟨op, rfl⟩ := exists_operator hc
  have hbits := (vanish_append.mp h).1
  have hbit : Felt.booleanity (w.row.get op.selector) = 0 :=
    hbits _ (List.mem_map_of_mem (List.mem_map_of_mem hc))
  have hone := ((Felt.booleanity_eq_zero_iff _).mp hbit).resolve_left hne
  exact ⟨op, selects_of_vanish h hone⟩

theorem vanish_iff (w : Window) :
    Vanish (identities w) ↔ w.row.SelectsNone ∨ ∃ op, w.row.Selects op := by
  constructor
  · intro h
    by_cases hnone : w.row.SelectsNone
    · exact .inl hnone
    · simp only [Row.SelectsNone, not_forall] at hnone
      obtain ⟨c, hc, hne⟩ := hnone
      exact .inr (exists_selects h hc hne)
  · rintro (hnone | ⟨op, hop⟩)
    · exact vanish_of_selectsNone hnone
    · exact vanish_of_selects hop

end Selector

/-! Relations between registers carry over to rows that agree in the registers. -/

section Congruence
variable {r s : Row} {x y z : Register}

theorem Chain.Holds.congr (h : Holds r x y z) (hx : r.limbs x = s.limbs x)
    (hy : r.limbs y = s.limbs y) (hz : r.limbs z = s.limbs z)
    (hc : r.limbs Layout.carry = s.limbs Layout.carry) : Holds s x y z := by
  rw [holds_iff] at h ⊢
  rwa [← hx, ← hy, ← hz, ← hc]

theorem Chain.Compares.congr (h : Compares r) (ho : r.limbs Layout.output = s.limbs Layout.output)
    (hc : r.limbs Layout.carry = s.limbs Layout.carry) : Compares s := by
  have hout := List.map_inj_left.mp ho
  have htop := List.map_inj_left.mp hc Layout.topCarry (by decide)
  constructor
  · rw [← hout _ (by decide), ← htop, h.low]
  · rw [← hout _ (by decide), h.high]

theorem Product.Holds.congr (h : Holds r x y) (hx : r.limbs x = s.limbs x)
    (hy : r.limbs y = s.limbs y) (ho : r.limbs Layout.output = s.limbs Layout.output)
    (hc : r.limbs Layout.carry = s.limbs Layout.carry) : Holds s x y := by
  rw [Holds] at h ⊢
  rwa [← hx, ← hy, ← ho, ← hc]

end Congruence

namespace Remainder
variable {next next' : Row} {m r q p : List Felt}

/-- The columns of the second row, for a polynomial settled by the given number of carries. -/
def columns (carries : ℕ) : List Column :=
  Layout.productCarry.take carries ++ Layout.gap ++ [Layout.modulusIsZero, Layout.modulusInverse]

theorem holds_congr (h : ∀ c ∈ columns (p.length - 1), next.get c = next'.get c)
    (hholds : Degenerate next m r q ∨ Proper next m r p) :
    Degenerate next' m r q ∨ Proper next' m r p := by
  simp only [columns, List.forall_mem_append, List.forall_mem_cons] at h
  obtain ⟨⟨hcarries, hgap⟩, hflag, hinverse, -⟩ := h
  rcases hholds with hd | hp
  · exact .inl ⟨hflag.symm.trans hd.flag, hd.modulus, hd.quotient, hd.remainder⟩
  · refine .inr ⟨hflag.symm.trans hp.flag, ?_, ?_, ?_⟩
    · rw [← hinverse, hp.inverse]
    · have htake : (next.limbs Layout.productCarry).take (p.length - 1) =
          (next'.limbs Layout.productCarry).take (p.length - 1) := by
        rw [Row.limbs, Row.limbs, ← List.map_take, ← List.map_take]
        exact List.map_congr_left hcarries
      rw [← htake]
      exact hp.carries
    · have hlimbs : next.limbs Layout.gap = next'.limbs Layout.gap := List.map_congr_left hgap
      rw [← hlimbs, hp.gap]

end Remainder

section Congruence
variable {w w' : Window} {x y z : Register}

theorem Division.Holds.congr (h : Holds w x y z) (hlx : x.length = 2) (hly : y.length = 2)
    (hx : w.row.limbs x = w'.row.limbs x) (hy : w.row.limbs y = w'.row.limbs y)
    (hz : w.row.limbs z = w'.row.limbs z)
    (ho : w.row.limbs Layout.output = w'.row.limbs Layout.output)
    (hq : w.row.limbs Layout.quotient = w'.row.limbs Layout.quotient)
    (hr : w.row.limbs Layout.remainder = w'.row.limbs Layout.remainder)
    (hnext : ∀ c ∈ Remainder.columns 2, w.next.get c = w'.next.get c) : Holds w' x y z := by
  have hlen := length_polynomial ((w.row.length_limbs x).trans hlx)
    ((w.row.length_limbs y).trans hly) (w.row.length_limbs Layout.quotient)
    (w.row.length_limbs Layout.remainder)
  constructor
  · rw [← hx, ← hy, ← hq, ← hr]
    refine Remainder.holds_congr ?_ h.division
    rw [hlen]
    exact hnext
  · rw [← ho, ← hz, h.output]

theorem Residue.Holds.congr {op : ResidueOp} (h : Holds w op)
    (hx : w.row.limbs Layout.operand0 = w'.row.limbs Layout.operand0)
    (hy : w.row.limbs Layout.operand1 = w'.row.limbs Layout.operand1)
    (hm : w.row.limbs Layout.operand2 = w'.row.limbs Layout.operand2)
    (ho : w.row.limbs Layout.output = w'.row.limbs Layout.output)
    (hq : w.row.limbs Layout.wideQuotient = w'.row.limbs Layout.wideQuotient)
    (hnext : ∀ c ∈ Remainder.columns 4, w.next.get c = w'.next.get c) : Holds w' op := by
  have hlen := length_polynomial op (w.row.length_limbs Layout.operand0)
    (w.row.length_limbs Layout.operand1) (w.row.length_limbs Layout.operand2)
    (w.row.length_limbs Layout.output) (w.row.length_limbs Layout.wideQuotient)
  rw [Holds, ← hx, ← hy, ← hm, ← ho, ← hq]
  refine Remainder.holds_congr ?_ h
  rw [hlen]
  exact hnext

end Congruence

namespace Operator

/-- The columns of the first row that an operator makes use of. -/
def columns : Operator → List Column
  | .word .add | .word .sub | .word .mul =>
    Layout.operand0 ++ Layout.operand1 ++ Layout.output ++ Layout.carry
  | .word .lt | .word .gt =>
    Layout.operand0 ++ Layout.operand1 ++ Layout.output ++ Layout.carry ++ Layout.wrapped
  | .word .shl => Layout.operand1 ++ Layout.operand2 ++ Layout.output ++ Layout.carry
  | .word .div | .word .mod =>
    Layout.operand0 ++ Layout.operand1 ++ Layout.output ++ Layout.quotient ++ Layout.remainder
  | .word .shr =>
    Layout.operand1 ++ Layout.operand2 ++ Layout.output ++ Layout.quotient ++ Layout.remainder
  | .residue _ =>
    Layout.operand0 ++ Layout.operand1 ++ Layout.operand2 ++ Layout.output ++ Layout.wideQuotient

/-- The columns of the second row that an operator makes use of. -/
def nextColumns : Operator → List Column
  | .word .div | .word .mod | .word .shr => Remainder.columns 2
  | .residue _ => Remainder.columns 4
  | _ => []

/-- Windows that agree in all columns of an operator. -/
structure Agree (op : Operator) (w w' : Window) : Prop where
  row : ∀ c ∈ op.columns, w.row.get c = w'.row.get c
  next : ∀ c ∈ op.nextColumns, w.next.get c = w'.next.get c

variable {op : Operator} {w w' : Window}

theorem Agree.symm (h : op.Agree w w') : op.Agree w' w :=
  ⟨fun c hc => (h.row c hc).symm, fun c hc => (h.next c hc).symm⟩

theorem Agree.limbs (h : op.Agree w w') {register : Register}
    (hr : ∀ c ∈ register, c ∈ op.columns := by decide) :
    w.row.limbs register = w'.row.limbs register :=
  List.map_congr_left fun c hc => h.row c (hr c hc)

/-- The relation of an operator is one between its columns. -/
theorem Holds.congr (hholds : op.Holds w) (h : op.Agree w w') : op.Holds w' := by
  rcases op with op | op <;> cases op
  case word.add | word.sub => exact Chain.Holds.congr hholds h.limbs h.limbs h.limbs h.limbs
  case word.lt | word.gt =>
    obtain ⟨hchain, hcompares⟩ := hholds
    exact ⟨hchain.congr h.limbs h.limbs h.limbs h.limbs, hcompares.congr h.limbs h.limbs⟩
  case word.mul | word.shl => exact Product.Holds.congr hholds h.limbs h.limbs h.limbs h.limbs
  case word.div | word.mod | word.shr =>
    exact Division.Holds.congr hholds rfl rfl h.limbs h.limbs h.limbs h.limbs h.limbs h.limbs
      h.next
  case residue.add | residue.mul | residue.sub =>
    exact Residue.Holds.congr hholds h.limbs h.limbs h.limbs h.limbs h.limbs h.next

end Operator

namespace Table

/-- Selectors are in order if and only if none is set or one. When none is set the table accepts,
and when the same one is set in two windows that agree in the columns of its operator the verdict is
the same. -/
theorem operators_isolated :
    (∀ w : Window, Vanish (Selector.identities w) ↔
      w.row.SelectsNone ∨ ∃ op, w.row.Selects op) ∧
    (∀ w : Window, w.row.SelectsNone → accepts w = true) ∧
    ∀ (op : Operator) (w w' : Window), w.row.Selects op → w'.row.Selects op → op.Agree w w' →
      accepts w = accepts w' := by
  refine ⟨Selector.vanish_iff, fun w hnone => accepts_of_selectsNone hnone, ?_⟩
  intro op w w' hw hw' hagree
  apply Bool.eq_iff_iff.mpr
  rw [accepts_iff_of_selects hw, accepts_iff_of_selects hw']
  exact ⟨fun h => h.congr hagree, fun h => h.congr hagree.symm⟩

/-- The row of a left shift keeps its verdict when it names another amount and another row follows:
the amount is not looked at, but for the factor that stands for it. -/
theorem operators_isolated_shl :
    let w : Window := ⟨WordOp.shl.multiplied (Operation.start (.word .shl)).row ⟨3, by decide⟩
      ⟨100003, by decide⟩, .zero⟩
    let w' : Window := ⟨w.row.set 12 (Felt.ofNat 4), Row.zero.set Layout.modulusInverse 1⟩
    Vanish (Selector.identities w) ∧ accepts (.alone w'.next) = true ∧ accepts w = accepts w' := by
  intro w w'
  have hw : w.row.Selects (.word .shl) :=
    WordOp.selects_multiplied (.inr rfl) (Operation.selects_start _) _ _
  have hw' : w'.row.Selects (.word .shl) := hw.of_limbs (Row.limbs_set_of_not_mem _ _ (by decide))
  have hagree : Operator.Agree (.word .shl) w w' := ⟨by decide +kernel, by decide⟩
  exact ⟨(operators_isolated.1 w).mpr (.inr ⟨_, hw⟩),
    operators_isolated.2.1 _ (by decide +kernel),
    operators_isolated.2.2 _ w w' hw hw' hagree⟩

end Table
end WordTrace
