import WordTrace.Proofs.Operation
import WordTrace.Proofs.Verdict

/-! # Shifts are products and quotients

Once its factor is known, a left shift is recorded as the product with it and a right shift as the
quotient by it. The rows differ in the selector and in the operands, which a shift keeps one
register further on, after its amount.
-/

namespace WordTrace
open Limb (cells)

/-- The columns that tell an operator and its operands. -/
def Layout.inputs : Register := selectors ++ (operand0 ++ (operand1 ++ operand2))

namespace Row.SameBut
variable {register : Register} {r s : Row}

theorem product_filled (h : r.SameBut register s) (left right : ℤ) :
    (Product.filled r left right).SameBut register (Product.filled s left right) :=
  (h.write _ _).write _ _

theorem division_filled (h : r.SameBut register s) (next next' : Row)
    (dividend divisor output : ℤ) :
    (Division.filled ⟨r, next⟩ dividend divisor output).row.SameBut register
      (Division.filled ⟨s, next'⟩ dividend divisor output).row :=
  ((h.write _ _).write _ _).write _ _

end Row.SameBut

theorem Operation.sameBut_start (op op' : Operator) :
    (start op).row.SameBut Layout.inputs (start op').row := by
  have hzero (o : Operator) : (start o).row.SameBut Layout.inputs Row.zero :=
    Row.SameBut.set_left _ 1 (List.mem_append_left _ (Selector.mem_selectors o))
  exact (hzero op).trans (hzero op').symm

/-- Products and quotients keep their operands in the first two registers. -/
theorem WordOp.sameBut_operands (r : Row) (a b : ℤ) :
    ((r.write Layout.operand0 (cells 2 a)).write Layout.operand1 (cells 2 b)).SameBut
      Layout.inputs r := by
  have hfirst : (r.write Layout.operand0 (cells 2 a)).SameBut Layout.inputs r :=
    Row.SameBut.write_left r _ (by decide)
  exact (Row.SameBut.write_left _ _ (by decide)).trans hfirst

namespace Shift

/-- Shifts keep their factor in a third one. -/
theorem sameBut_operands (r : Row) (amount z : ℤ) :
    (operands r amount z).SameBut Layout.inputs r :=
  (Row.SameBut.write_left _ _ (by decide)).trans (WordOp.sameBut_operands r amount z)

/-- However the operands stand, two operators start alike but for their inputs. -/
theorem sameBut_started (op op' : Operator) (amount z a b : ℤ) :
    (operands (Operation.start op).row amount z).SameBut Layout.inputs
      (((Operation.start op').row.write Layout.operand0 (cells 2 a)).write Layout.operand1
        (cells 2 b)) :=
  ((sameBut_operands _ amount z).trans (Operation.sameBut_start op op')).trans
    (WordOp.sameBut_operands _ a b).symm

/-- The factor of an amount that is a word is a word itself. -/
def word (amount : Word) : Word := ⟨factor amount.val, factor_bounds amount.val⟩

theorem factor?_word (amount : Word) : factor? amount.val = .ok (word amount).val :=
  if_neg (not_lt.mpr amount.property.1)

theorem sameBut_multiplied (amount z : Word) :
    (WordOp.shl.multiplied (Operation.start (.word .shl)).row amount z).SameBut Layout.inputs
      (WordOp.mul.multiplied (Operation.start (.word .mul)).row z (word amount)) := by
  have hoperands := sameBut_started (.word .shl) (.word .mul) amount.val z.val z.val
    (word amount).val
  exact hoperands.product_filled z.val (factor amount.val)

theorem sameBut_divided (amount z : Word) :
    (WordOp.shr.divided (Operation.start (.word .shr)) amount z).row.SameBut Layout.inputs
      (WordOp.div.divided (Operation.start (.word .div)) z (word amount)).row := by
  have hoperands := sameBut_started (.word .shr) (.word .div) amount.val z.val z.val
    (word amount).val
  have houtput : WordOp.shr.result amount.val z.val = WordOp.div.result z.val (word amount).val :=
    WordOp.result_shr amount.val z.val
  rw [WordOp.divided, houtput]
  exact hoperands.division_filled _ _ z.val (factor amount.val) _

/-- The second row holds nothing of the operator and nothing of its operands. -/
theorem next_divided (amount z : Word) :
    (WordOp.shr.divided (Operation.start (.word .shr)) amount z).next =
      (WordOp.div.divided (Operation.start (.word .div)) z (word amount)).next := rfl

/-- A shift has the result of the product with its factor or of the quotient by it, and the rows
of that operation up to the selector and the operands. -/
theorem rows_simulated (amount z : Word) :
    ∃ d : Word, factor? amount.val = .ok d.val ∧
      WordOp.shl.result amount.val z.val = WordOp.mul.result z.val d.val ∧
      WordOp.shr.result amount.val z.val = WordOp.div.result z.val d.val ∧
      (∃ shifted product : Row,
        (Operation.word (WordOp.shl.operation amount z)).rows = .ok ⟨shifted, none⟩ ∧
        (Operation.word (WordOp.mul.operation z d)).rows = .ok ⟨product, none⟩ ∧
        shifted.SameBut Layout.inputs product) ∧
      ∃ shifted quotient next : Row,
        (Operation.word (WordOp.shr.operation amount z)).rows = .ok ⟨shifted, some next⟩ ∧
        (Operation.word (WordOp.div.operation z d)).rows = .ok ⟨quotient, some next⟩ ∧
        shifted.SameBut Layout.inputs quotient := by
  have hshl := @WordOp.records_of_multiplies .shl (by decide) amount z
  have hmul := @WordOp.records_of_multiplies .mul (by decide) z (word amount)
  have hshr := @WordOp.records_of_divides .shr (by decide) amount z
  have hdiv := @WordOp.records_of_divides .div (by decide) z (word amount)
  refine ⟨word amount, factor?_word amount, WordOp.result_shl _ _, WordOp.result_shr _ _, ?_, ?_⟩
  · exact ⟨_, _, hshl.rows, hmul.rows, sameBut_multiplied amount z⟩
  · refine ⟨_, _, _, hshr.rows, ?_, sameBut_divided amount z⟩
    rw [next_divided amount z]
    exact hdiv.rows

end Shift
end WordTrace
