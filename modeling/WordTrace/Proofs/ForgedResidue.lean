import WordTrace.Proofs.Completeness

/-! # Range checks on limbs alone leave residues open

Unlike a division, a residue has a quotient wide enough for every field element. Dividing in the
field gives a quotient for any output below the modulus, and solving for the carries makes the
table accept it.
-/

namespace WordTrace
open Limb (Fits InRange cells digits)

namespace Residue

/-- The quotient, taken in the field, that leaves the given output. -/
def forgedQuotient (op : ResidueOp) (a b m output : ℤ) : Felt :=
  (Felt.ofInt (op.exact a b) - Felt.ofInt output) * (Felt.ofInt m)⁻¹

/-- The polynomial of a residue with the forged quotient. -/
def forgedPolynomial (op : ResidueOp) (a b m output : ℤ) : List ℤ :=
  polynomial op (digits 2 a) (digits 2 b) (digits 2 m) (digits 2 output)
    (digits 4 (forgedQuotient op a b m output).val)

variable {a b m output : ℤ}

/-- Four limbs hold every representative. -/
theorem fits_val (x : Felt) : Fits 4 x.val := by
  have hx := x.val_lt
  simp only [Fits, prime, Int.natAbs_natCast] at *
  omega

theorem mul_forgedQuotient (op : ResidueOp) (hm : Felt.ofInt m ≠ 0) :
    Felt.ofInt m * forgedQuotient op a b m output =
      Felt.ofInt (op.exact a b) - Felt.ofInt output := by
  rw [forgedQuotient, mul_left_comm, Felt.mul_inv_self hm, mul_one]

theorem valueFelt_forgedPolynomial (op : ResidueOp) (ha : Fits 2 a) (hb : Fits 2 b)
    (hm : Fits 2 m) (hr : Fits 2 output) (hne : Felt.ofInt m ≠ 0) :
    Limb.valueFelt ((forgedPolynomial op a b m output).map Felt.ofInt) = 0 := by
  rw [Limb.valueFelt_map_ofInt, forgedPolynomial, value_polynomial, Limb.value_digits ha,
    Limb.value_digits hb, Limb.value_digits hm, Limb.value_digits hr,
    Limb.value_digits (fits_val _), Felt.ofInt_sub, Felt.ofInt_add, Felt.ofInt_mul, Felt.ofInt_val,
    mul_forgedQuotient op hne]
  ring

theorem length_forgedPolynomial (op : ResidueOp) (a b m output : ℤ) :
    (forgedPolynomial op a b m output).length = 5 := by
  apply length_polynomial <;> exact Limb.length_digits _ _

/-- Carries from the field settle the forged quotient. -/
theorem exists_carries (op : ResidueOp) (ha : Fits 2 a) (hb : Fits 2 b) (hm : Fits 2 m)
    (hr : Fits 2 output) (hne : Felt.ofInt m ≠ 0) :
    ∃ carries : List Felt, carries.length = 4 ∧
      Vanish (Carry.residuals ((forgedPolynomial op a b m output).map Felt.ofInt) carries) := by
  have hlen : ((forgedPolynomial op a b m output).map Felt.ofInt).length = 5 := by
    rw [List.length_map, length_forgedPolynomial]
  obtain ⟨carries, hcarries, hvanish⟩ := Carry.exists_vanish
    (List.ne_nil_of_length_pos (by omega)) (valueFelt_forgedPolynomial op ha hb hm hr hne)
  refine ⟨carries, ?_, hvanish⟩
  rw [hcarries, hlen]

/-- Any output with the quotient forged to fit, next to any carries and the bound on the output. -/
def forged (op : ResidueOp) (a b m output : ℤ) (carries : List Felt) : Window where
  row := written (Operation.start (.residue op)).row a b m output
    (forgedQuotient op a b m output).val
  next := Remainder.filled (Row.zero.write Layout.productCarry carries) m output

theorem selects_forged (op : ResidueOp) (a b m output : ℤ) (carries : List Felt) :
    (forged op a b m output carries).row.Selects (.residue op) :=
  (Operation.selects_start (.residue op)).of_limbs (limbs_selectors_written _ _ _ _ _ _)

theorem proper_forged (op : ResidueOp) {carries : List Felt} (h0 : 0 ≤ output) (hlt : output < m)
    (hm : m < wordLimit) (hlen : carries.length = 4)
    (hvanish : Vanish
      (Carry.residuals ((forgedPolynomial op a b m output).map Felt.ofInt) carries)) :
    Remainder.Proper (forged op a b m output carries).next (cells 2 m) (cells 2 output)
      ((forgedPolynomial op a b m output).map Felt.ofInt) := by
  have htake : ((Row.zero.write Layout.productCarry carries).limbs Layout.productCarry).take 4 =
      carries := by
    rw [← hlen]
    exact Row.take_limbs_write _ (by decide) hlen.le
  refine Remainder.proper_filled ?_ h0 hlt hm ?_
  · exact Row.get_write_of_not_mem _ _ (by decide)
  · rw [List.length_map, length_forgedPolynomial, htake]
    exact hvanish

/-- Whatever the operands are, every number below the modulus is accepted as output of limbs in
range, with a quotient and a gap of limbs in range. -/
theorem any_output_accepted (op : ResidueOp) (a b m : Word) {output : ℤ} (h0 : 0 ≤ output)
    (hlt : output < m.val) :
    ∃ w : Window, Table.accepts w = true ∧ w.row.Selects (.residue op) ∧
      w.row.limbs Layout.operand0 = cells 2 a.val ∧
      w.row.limbs Layout.operand1 = cells 2 b.val ∧
      w.row.limbs Layout.operand2 = cells 2 m.val ∧
      w.row.limbs Layout.output = cells 2 output ∧
      InRange (w.row.limbs Layout.wideQuotient) ∧ InRange (w.next.limbs Layout.gap) ∧
      w.next.get Layout.modulusIsZero = 0 := by
  have hm := m.property
  have hr : Fits 2 output := fits_of_bounds h0 (hlt.trans hm.2)
  have hzero : m.val ≠ 0 := by omega
  obtain ⟨carries, hlen, hvanish⟩ := exists_carries op (Fits.word a) (Fits.word b) (Fits.word m) hr
    (Limb.ofInt_ne_zero hm hzero)
  have hselects := selects_forged op a.val b.val m.val output carries
  have hproper := proper_forged op h0 hlt hm.2 hlen hvanish
  refine ⟨forged op a.val b.val m.val output carries,
    (Table.accepts_iff_of_selects hselects).mpr ?_, hselects, limbs_operand0_written _ _ _ _ _ _,
    limbs_operand1_written _ _ _ _ _ _, limbs_operand2_written _ _ _ _ _ _,
    limbs_output_written _ _ _ _ _ _, ?_, ?_, hproper.flag⟩
  · exact (holds_written_iff _ _ _ _ _ _ op _).mpr (.inr hproper)
  · rw [forged, limbs_wideQuotient_written]
    exact Limb.inRange_cells (Int.natCast_nonneg _)
  · rw [forged, Remainder.limbs_gap_filled _ _ hzero]
    exact Limb.inRange_cells (by omega)

/-- Three times five is accepted as six modulo seven. -/
theorem any_output_accepted_wrong : ResidueOp.result .mul 3 5 7 ≠ 6 ∧
    ∃ w : Window, Table.accepts w = true ∧ w.row.Selects (.residue .mul) ∧
      w.row.limbs Layout.operand0 = cells 2 3 ∧ w.row.limbs Layout.operand1 = cells 2 5 ∧
      w.row.limbs Layout.operand2 = cells 2 7 ∧ w.row.limbs Layout.output = cells 2 6 ∧
      InRange (w.row.limbs Layout.wideQuotient) ∧ InRange (w.next.limbs Layout.gap) ∧
      w.next.get Layout.modulusIsZero = 0 :=
  ⟨by decide, any_output_accepted .mul ⟨3, by decide⟩ ⟨5, by decide⟩ ⟨7, by decide⟩ (by decide)
    (by decide)⟩

end Residue
end WordTrace
