import WordTrace.Proofs.ChainSoundness
import WordTrace.Proofs.Isolation

/-! # No other output is accepted

Once all other columns of a window are given, each operator leaves one choice at most for the
output, over the whole field and without any range check. A sum, a product and a residue determine
it through their carries, a comparison repeats a carry, and a division repeats its quotient or its
remainder. When the modulus of a residue is zero no polynomial is left, but the output is zero.
-/

namespace WordTrace

/-! What each gadget makes of the output. -/

section Gadgets
variable {r s : Row} {x y z : Register}

theorem Chain.sum_unique (h : Holds r x y z) (h' : Holds s x y z) (hx : r.limbs x = s.limbs x)
    (hy : r.limbs y = s.limbs y) (hc : r.limbs Layout.carry = s.limbs Layout.carry) :
    r.limbs z = s.limbs z := by
  have hsum := h.sum
  rw [hx, hy, hc] at hsum
  have hpoly := Carry.polynomial_eq_of_vanish (by simp) hsum h'.sum
  exact LimbPoly.difference_left_cancel (by simp) hpoly

theorem Chain.summand_unique (h : Holds r x y z) (h' : Holds s x y z)
    (hy : r.limbs y = s.limbs y) (hz : r.limbs z = s.limbs z)
    (hc : r.limbs Layout.carry = s.limbs Layout.carry) : r.limbs x = s.limbs x := by
  have hsum := h.sum
  rw [hy, hz, hc] at hsum
  have hpoly := Carry.polynomial_eq_of_vanish (by simp) hsum h'.sum
  exact LimbPoly.sum_left_cancel (by simp) (LimbPoly.difference_right_cancel (by simp) hpoly)

theorem Product.output_unique (h : Holds r x y) (h' : Holds s x y) (hx : r.limbs x = s.limbs x)
    (hy : r.limbs y = s.limbs y) (hc : r.limbs Layout.carry = s.limbs Layout.carry) :
    r.limbs Layout.output = s.limbs Layout.output := by
  rw [Holds, hx, hy, hc] at h
  have hpoly := Carry.polynomial_eq_of_vanish (by simp) h h'
  exact LimbPoly.difference_left_cancel (by simp) hpoly

theorem Residue.output_unique {op : ResidueOp} {next : Row} (h : Holds ⟨r, next⟩ op)
    (h' : Holds ⟨s, next⟩ op) (hsame : r.SameBut Layout.output s) :
    r.limbs Layout.output = s.limbs Layout.output := by
  have ha : r.limbs Layout.operand0 = s.limbs Layout.operand0 := hsame.limbs
  have hb : r.limbs Layout.operand1 = s.limbs Layout.operand1 := hsame.limbs
  have hm : r.limbs Layout.operand2 = s.limbs Layout.operand2 := hsame.limbs
  have hq : r.limbs Layout.wideQuotient = s.limbs Layout.wideQuotient := hsame.limbs
  simp only [Holds, ha, hb, hm, hq] at h
  by_cases hzero : Limb.valueFelt (s.limbs Layout.operand2) = 0
  · have hd := Remainder.degenerate_of_eq_zero h hzero
    have hd' := Remainder.degenerate_of_eq_zero h' hzero
    exact hd.remainder.eq (by simp) hd'.remainder
  · have hp := (Remainder.proper_of_ne_zero h hzero).carries
    have hp' := (Remainder.proper_of_ne_zero h' hzero).carries
    have hlen (u : Row) :
        (polynomial op (s.limbs Layout.operand0) (s.limbs Layout.operand1)
          (s.limbs Layout.operand2) (u.limbs Layout.output)
          (s.limbs Layout.wideQuotient)).length = 5 :=
      length_polynomial op (s.length_limbs _) (s.length_limbs _) (s.length_limbs _)
        (u.length_limbs _) (s.length_limbs _)
    rw [hlen r] at hp
    rw [hlen s] at hp'
    have hpoly := Carry.polynomial_eq_of_vanish ((hlen r).trans (hlen s).symm) hp hp'
    have hsum := LimbPoly.difference_left_cancel (by simp) hpoly
    rw [LimbPoly.sum_comm, LimbPoly.sum_comm _ (s.limbs Layout.output)] at hsum
    exact LimbPoly.sum_left_cancel (by simp) hsum

end Gadgets

namespace Operator

theorem Holds.output_unique {op : Operator} {row row' next : Row} (h : op.Holds ⟨row, next⟩)
    (h' : op.Holds ⟨row', next⟩) (hsame : row.SameBut Layout.output row') :
    row.limbs Layout.output = row'.limbs Layout.output := by
  rcases op with op | op
  · cases op
    case add => exact Chain.sum_unique h h' hsame.limbs hsame.limbs hsame.limbs
    case sub => exact Chain.summand_unique h h' hsame.limbs hsame.limbs hsame.limbs
    case lt | gt => exact h.2.output_eq h'.2 hsame.limbs
    case mul | shl => exact Product.output_unique h h' hsame.limbs hsame.limbs hsame.limbs
    case div | mod | shr => exact (h.output.trans hsame.limbs).trans h'.output.symm
  · exact Residue.output_unique h h' hsame

end Operator

namespace Table
variable {row row' next : Row}

/-- When a window with a selector that is not zero is accepted, no other output is accepted in its
place, by whatever field elements it differs and whatever the window was made of. -/
theorem tampered_output_rejected (haccepts : accepts ⟨row, next⟩ = true)
    (hselected : ∃ c ∈ Layout.selectors, row.get c ≠ 0) (hsame : row.SameBut Layout.output row')
    (hdiffers : ∃ c ∈ Layout.output, row.get c ≠ row'.get c) : accepts ⟨row', next⟩ = false := by
  obtain ⟨c, hc, hne⟩ := hselected
  obtain ⟨op, hop⟩ := Selector.exists_selects ((accepts_iff_vanish _).mp haccepts).1 hc hne
  have hop' : row'.Selects op := hop.of_limbs hsame.limbs.symm
  have hholds := (accepts_iff_of_selects hop).mp haccepts
  obtain ⟨d, hd, hdiffers⟩ := hdiffers
  apply Bool.eq_false_iff.mpr
  intro haccepts'
  have hholds' := (accepts_iff_of_selects hop').mp haccepts'
  exact hdiffers (List.map_inj_left.mp (hholds.output_unique hholds' hsame) d hd)

/-- With a modulus of zero nothing is left of the product but its output, which must be zero. -/
theorem tampered_output_rejected_zero_modulus :
    let w : Window := Residue.filled (Operation.start (.residue .mul)) .mul 3 5 0
    accepts w = true ∧ accepts ⟨w.row.set Layout.outputHigh 1, w.next⟩ = false := by
  intro w
  have haccepts : accepts w = true := by decide +kernel
  exact ⟨haccepts, tampered_output_rejected haccepts ⟨10, by decide, by decide +kernel⟩
    (by decide +kernel) ⟨Layout.outputHigh, by decide, by decide +kernel⟩⟩

end Table
end WordTrace
