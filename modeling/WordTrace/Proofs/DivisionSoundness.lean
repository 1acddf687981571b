import WordTrace.Proofs.Completeness
import WordTrace.Proofs.Remainder

/-! # Divisions are bound without range checks on carries

A divisor times a quotient and a remainder, all of them words, stay below the prime. The equation
that the carries prove in the field is then one of integers, whatever the carries are, and every
column of the division is the one that its gadget records.
-/

namespace WordTrace
open Limb (InRange number valueFelt cells)
open Remainder (quotient remainder)

namespace Division
variable {next : Row} {a b q r : List Felt}

theorem mul_add_of_proper (h : Remainder.Proper next b r (polynomial a b q r)) (ha : InRange a)
    (hb : InRange b) (hq : InRange q) (hr : InRange r) (hla : a.length = 2) (hlb : b.length = 2)
    (hlq : q.length = 2) (hlr : r.length = 2) : number b * number q + number r = number a := by
  obtain ⟨ha0, ha⟩ := ha.word_bounds hla
  obtain ⟨hb0, hb⟩ := hb.word_bounds hlb
  obtain ⟨hq0, hq⟩ := hq.word_bounds hlq
  obtain ⟨hr0, hr⟩ := hr.word_bounds hlr
  have hlen := length_polynomial hla hlb hlq hlr
  have hvalue : valueFelt (polynomial a b q r) = 0 := by
    refine Carry.valueFelt_eq_of_vanish ?_ h.carries
    rw [List.length_take, hlen]
    exact (min_le_left _ _).trans_lt (by decide)
  rw [polynomial, LimbPoly.valueFelt_difference, LimbPoly.valueFelt_sum, LimbPoly.valueFelt_product,
    ← Limb.ofInt_number, ← Limb.ofInt_number, ← Limb.ofInt_number, ← Limb.ofInt_number,
    ← Felt.ofInt_mul, ← Felt.ofInt_add, sub_eq_zero] at hvalue
  refine Felt.eq_of_ofInt_eq hvalue ?_
  -- the greatest product of words and another word make exactly the prime less one
  have hproduct0 : 0 ≤ number b * number q := mul_nonneg hb0 hq0
  have hproduct : number b * number q ≤ (wordLimit - 1) * (wordLimit - 1) :=
    mul_le_mul (Int.le_sub_one_of_lt hb) (Int.le_sub_one_of_lt hq) hq0 (by decide)
  rw [abs_lt]
  simp only [wordLimit, prime] at *
  omega

/-- Rows that agree in output, quotient and remainder. -/
structure Agree (row row' : Row) : Prop where
  output : row.limbs Layout.output = row'.limbs Layout.output
  quotient : row.limbs Layout.quotient = row'.limbs Layout.quotient
  remainder : row.limbs Layout.remainder = row'.limbs Layout.remainder

/-- Second rows that agree in the two carries in use, in the gap and in the inverse. -/
structure AgreeNext (next next' : Row) : Prop where
  carries : (next.limbs Layout.productCarry).take 2 = (next'.limbs Layout.productCarry).take 2
  gap : next.limbs Layout.gap = next'.limbs Layout.gap
  inverse : next.get Layout.modulusInverse = next'.get Layout.modulusInverse

variable {row next' : Row} {x y selected : Register}

/-- The first row of a division leaves one choice for the flag in the second. -/
theorem isZero_unique (h : Holds ⟨row, next⟩ x y selected) (h' : Holds ⟨row, next'⟩ x y selected) :
    next.get Layout.modulusIsZero = next'.get Layout.modulusIsZero := by
  by_cases hzero : valueFelt (row.limbs y) = 0
  · have hd := Remainder.degenerate_of_eq_zero h.division hzero
    have hd' := Remainder.degenerate_of_eq_zero h'.division hzero
    exact hd.flag.trans hd'.flag.symm
  · have hp := Remainder.proper_of_ne_zero h.division hzero
    have hp' := Remainder.proper_of_ne_zero h'.division hzero
    exact hp.flag.trans hp'.flag.symm

/-- When the divisor is not zero it leaves one choice for all that the second row holds. -/
theorem agreeNext (h : Holds ⟨row, next⟩ x y selected) (h' : Holds ⟨row, next'⟩ x y selected)
    (hx : x.length = 2) (hy : y.length = 2) (hne : valueFelt (row.limbs y) ≠ 0)
    (hg : InRange (next.limbs Layout.gap)) (hg' : InRange (next'.limbs Layout.gap)) :
    AgreeNext next next' := by
  have hlen := length_polynomial (a := row.limbs x) (b := row.limbs y)
    (q := row.limbs Layout.quotient) (r := row.limbs Layout.remainder)
    ((row.length_limbs x).trans hx) ((row.length_limbs y).trans hy) (row.length_limbs _)
    (row.length_limbs _)
  have hp := Remainder.proper_of_ne_zero h.division hne
  have hp' := Remainder.proper_of_ne_zero h'.division hne
  obtain ⟨hinverse, hcarries, hgap⟩ := hp.unique hp' (hlen.trans_le (by decide)) hg hg'
  rw [hlen] at hcarries
  exact ⟨hcarries, hgap, hinverse⟩

end Division

namespace WordOp
variable {op : WordOp} {w : Window} {a b : Word}

/-- Dividend, divisor, quotient, remainder and gap consist of limbs; nothing is said of carries. -/
structure RangeChecked (op : WordOp) (w : Window) : Prop where
  dividend : InRange (w.row.limbs op.dividendRegister)
  divisor : InRange (w.row.limbs op.divisorRegister)
  quotient : InRange (w.row.limbs Layout.quotient)
  remainder : InRange (w.row.limbs Layout.remainder)
  gap : InRange (w.next.limbs Layout.gap)

instance (op : WordOp) (w : Window) : Decidable (op.RangeChecked w) :=
  decidable_of_iff (InRange (w.row.limbs op.dividendRegister) ∧
      InRange (w.row.limbs op.divisorRegister) ∧ InRange (w.row.limbs Layout.quotient) ∧
      InRange (w.row.limbs Layout.remainder) ∧ InRange (w.next.limbs Layout.gap))
    ⟨fun ⟨ha, hb, hq, hr, hg⟩ => ⟨ha, hb, hq, hr, hg⟩,
      fun ⟨ha, hb, hq, hr, hg⟩ => ⟨ha, hb, hq, hr, hg⟩⟩

theorem length_dividendRegister (op : WordOp) : op.dividendRegister.length = 2 := by
  cases op <;> rfl

theorem length_divisorRegister (op : WordOp) : op.divisorRegister.length = 2 := by
  cases op <;> rfl

theorem length_limbs_dividendRegister (op : WordOp) (r : Row) :
    (r.limbs op.dividendRegister).length = 2 :=
  (r.length_limbs _).trans op.length_dividendRegister

theorem length_limbs_divisorRegister (op : WordOp) (r : Row) :
    (r.limbs op.divisorRegister).length = 2 :=
  (r.length_limbs _).trans op.length_divisorRegister

/-- The row spells the operands of an operator that divides. -/
structure Spells (op : WordOp) (r : Row) (a b : Word) : Prop where
  first : (r.read Layout.operand0).value = Felt.ofInt a.val
  second : (r.read Layout.operand1).value = Felt.ofInt b.val
  dividend : number (r.limbs op.dividendRegister) = op.dividend a.val b.val
  divisor : number (r.limbs op.divisorRegister) = op.divisor a.val b.val

theorem exists_spells (h : op.Divides) (hw : op.RangeChecked w)
    (hshift : op = .shr → ∃ s : Word, (w.row.read Layout.operand0).value = Felt.ofInt s.val ∧
      (w.row.read Layout.operand2).value = Felt.ofInt (Shift.factor s.val)) :
    ∃ a b : Word, op.Spells w.row a b := by
  have ha := hw.dividend.word_bounds (op.length_limbs_dividendRegister w.row)
  have hb := hw.divisor.word_bounds (op.length_limbs_divisorRegister w.row)
  rcases h with rfl | rfl | rfl
  · exact ⟨⟨_, ha⟩, ⟨_, hb⟩, (Limb.ofInt_number _).symm, (Limb.ofInt_number _).symm, rfl, rfl⟩
  · exact ⟨⟨_, ha⟩, ⟨_, hb⟩, (Limb.ofInt_number _).symm, (Limb.ofInt_number _).symm, rfl, rfl⟩
  · obtain ⟨s, hs, hfactor⟩ := hshift rfl
    refine ⟨s, ⟨_, ha⟩, hs, (Limb.ofInt_number _).symm, rfl, ?_⟩
    exact Limb.eq_of_ofInt_eq hb (Shift.factor_bounds s.val) ((Limb.ofInt_number _).trans hfactor)

/-- Quotient and remainder are those of the operands. -/
theorem number_quotient_remainder (h : op.Divides) (hw : op.RangeChecked w)
    (hspells : op.Spells w.row a b) (hholds : (Operator.word op).Holds w) :
    number (w.row.limbs Layout.quotient) =
        quotient (op.dividend a.val b.val) (op.divisor a.val b.val) ∧
      number (w.row.limbs Layout.remainder) =
        remainder (op.dividend a.val b.val) (op.divisor a.val b.val) := by
  have hdivision := ((holds_iff_of_divides h w).mp hholds).division
  have hla := op.length_limbs_dividendRegister w.row
  have hlb := op.length_limbs_divisorRegister w.row
  have hlq : (w.row.limbs Layout.quotient).length = 2 := Row.length_limbs w.row _
  have hlr : (w.row.limbs Layout.remainder).length = 2 := Row.length_limbs w.row _
  rw [← hspells.dividend, ← hspells.divisor]
  refine Remainder.number_eq hdivision hw.divisor hw.remainder hw.gap hlb hlr ?_
  intro hproper
  exact Division.mul_add_of_proper hproper hw.dividend hw.divisor hw.quotient hw.remainder hla hlb
    hlq hlr

/-- The first row agrees with the one that the gadget leaves, and may be exchanged for it. -/
theorem agree_divided (h : op.Divides) (hw : op.RangeChecked w) (hspells : op.Spells w.row a b)
    (hholds : (Operator.word op).Holds w) (u : Window) :
    Division.Agree w.row (op.divided u a b).row ∧
      Division.Holds ⟨(op.divided u a b).row, w.next⟩ op.dividendRegister op.divisorRegister
        op.selectedRegister := by
  obtain ⟨hnumq, hnumr⟩ := number_quotient_remainder h hw hspells hholds
  obtain ⟨hdivision, hout⟩ := (holds_iff_of_divides h w).mp hholds
  have ha : w.row.limbs op.dividendRegister = (op.divided u a b).row.limbs op.dividendRegister :=
    (hw.dividend.eq_cells_of_number (op.length_limbs_dividendRegister _) hspells.dividend).trans
      (op.limbs_dividendRegister_divided u a b).symm
  have hb : w.row.limbs op.divisorRegister = (op.divided u a b).row.limbs op.divisorRegister :=
    (hw.divisor.eq_cells_of_number (op.length_limbs_divisorRegister _) hspells.divisor).trans
      (op.limbs_divisorRegister_divided u a b).symm
  have hq : w.row.limbs Layout.quotient = (op.divided u a b).row.limbs Layout.quotient :=
    (hw.quotient.eq_cells_of_number (Row.length_limbs _ _) hnumq).trans
      (Division.limbs_quotient_filled _ _ _ _).symm
  have hr : w.row.limbs Layout.remainder = (op.divided u a b).row.limbs Layout.remainder :=
    (hw.remainder.eq_cells_of_number (Row.length_limbs _ _) hnumr).trans
      (Division.limbs_remainder_filled _ _ _ _).symm
  have hselected : w.row.limbs op.selectedRegister =
      (op.divided u a b).row.limbs op.selectedRegister := by
    rcases h with rfl | rfl | rfl
    · exact hq
    · exact hr
    · exact hq
  have hout' : (op.divided u a b).row.limbs Layout.output =
      (op.divided u a b).row.limbs op.selectedRegister :=
    (Division.limbs_output_filled _ _ _ _).trans (limbs_selectedRegister_divided h u a b).symm
  rw [ha, hb, hq, hr] at hdivision
  exact ⟨⟨(hout.trans hselected).trans hout'.symm, hq, hr⟩, hdivision, hout'⟩

theorem inRange_gap_divided (op : WordOp) (u : Window) {a b : Word}
    (hne : op.divisor a.val b.val ≠ 0) :
    InRange ((op.divided u a b).next.limbs Layout.gap) :=
  Remainder.inRange_gap_filled (op.divisor_bounds a b).1 fun h => absurd h hne

/-- Once the table accepts a window under an operator that divides, range checks on all registers
but the output and the carries make it the window of the operation, in every column of the
division. A shift reads its divisor from a register that must hold the factor of its amount. -/
theorem columns_determined (h : op.Divides) (haccepts : Table.accepts w = true)
    (hselector : w.row.get op.selector = 1) (hw : op.RangeChecked w)
    (hshift : op = .shr → ∃ s : Word, (w.row.read Layout.operand0).value = Felt.ofInt s.val ∧
      (w.row.read Layout.operand2).value = Felt.ofInt (Shift.factor s.val)) :
    ∃ (a b : Word) (rows : Rows),
      (w.row.read Layout.operand0).value = Felt.ofInt a.val ∧
      (w.row.read Layout.operand1).value = Felt.ofInt b.val ∧
      (w.row.read Layout.output).value = Felt.ofInt (op.result a.val b.val) ∧
      (Operation.word (op.operation a b)).rows = .ok rows ∧
      Division.Agree w.row rows.window.row ∧
      w.next.get Layout.modulusIsZero = rows.window.next.get Layout.modulusIsZero ∧
      ((w.row.read op.divisorRegister).value ≠ 0 →
        Division.AgreeNext w.next rows.window.next) := by
  obtain ⟨-, hholds⟩ := @Table.holds_of_accepts w (.word op) haccepts hselector
  obtain ⟨a, b, hspells⟩ := exists_spells h hw hshift
  have hrecords := records_of_divides h a b
  have hholds' := (holds_iff_of_divides h _).mp
    (holds_divided h (w := Operation.start (.word op)) rfl a b)
  obtain ⟨hagree, hexchanged⟩ := agree_divided h hw hspells hholds (Operation.start (.word op))
  have houtput : w.row.limbs Layout.output = cells 2 (op.result a.val b.val) :=
    hagree.output.trans (Division.limbs_output_filled _ _ _ _)
  have hfits := fits_of_bounds (op.result_bounds a b).1 (op.result_bounds a b).2
  refine ⟨a, b, _, hspells.first, hspells.second, ?_, hrecords.rows, ?_⟩
  · exact (congrArg valueFelt houtput).trans (Limb.valueFelt_cells hfits)
  rw [hrecords.window]
  refine ⟨hagree, Division.isZero_unique hexchanged hholds', ?_⟩
  intro hvalue
  have hdivisor : (w.row.read op.divisorRegister).value = Felt.ofInt (op.divisor a.val b.val) :=
    (Limb.ofInt_number _).symm.trans (congrArg Felt.ofInt hspells.divisor)
  have hne : op.divisor a.val b.val ≠ 0 := by
    intro hzero
    rw [hdivisor, hzero] at hvalue
    exact hvalue Felt.ofInt_zero
  refine Division.agreeNext hexchanged hholds' op.length_dividendRegister op.length_divisorRegister
    ?_ hw.gap (op.inRange_gap_divided _ hne)
  rw [op.limbs_divisorRegister_divided, Limb.valueFelt_cells (op.fits_divisor a b), ← hdivisor]
  exact hvalue

/-- A shift by three places. -/
theorem columns_determined_shr : ∃ (a b : Word) (rows : Rows),
    let w := shr.divided (Operation.start (.word .shr)) ⟨3, by decide⟩ ⟨100003, by decide⟩
    (w.row.read Layout.operand0).value = Felt.ofInt a.val ∧
      (w.row.read Layout.operand1).value = Felt.ofInt b.val ∧
      (w.row.read Layout.output).value = Felt.ofInt (result .shr a.val b.val) ∧
      (Operation.word (operation .shr a b)).rows = .ok rows ∧
      Division.Agree w.row rows.window.row ∧
      w.next.get Layout.modulusIsZero = rows.window.next.get Layout.modulusIsZero ∧
      ((w.row.read shr.divisorRegister).value ≠ 0 →
        Division.AgreeNext w.next rows.window.next) :=
  columns_determined (.inr (.inr rfl)) (by decide +kernel) (by decide +kernel) (by decide +kernel)
    fun _ => ⟨⟨3, by decide⟩, by decide +kernel, by decide +kernel⟩

end WordOp
end WordTrace
