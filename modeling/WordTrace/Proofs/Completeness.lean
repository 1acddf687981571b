import WordTrace.Proofs.Operation
import WordTrace.Proofs.Verdict

/-! # Every operation is recorded and its rows are accepted

The window a gadget leaves keeps the relation that the table demands of its operator. The numbers
recorded settle over the integers, and what settles over the integers vanishes in the field.
-/

namespace WordTrace
open Limb (Fits cells digits base)
open LimbPoly (sum_map_ofInt difference_map_ofInt product_map_ofInt)

theorem Row.Selects.of_limbs {r s : Row} {op : Operator} (h : r.Selects op)
    (hs : s.limbs Layout.selectors = r.limbs Layout.selectors) : s.Selects op := by
  apply of_get
  intro o
  rw [← h.get o]
  exact List.map_inj_left.mp hs _ (Selector.mem_selectors o)

theorem Operation.selects_start (op : Operator) : (start op).row.Selects op := by
  apply Row.Selects.of_get
  intro o
  by_cases heq : op = o
  · rw [if_pos heq, start, heq, Row.get_set_self]
  · have hsel : o.selector ≠ op.selector := fun he => heq (Selector.selector_injective he).symm
    rw [if_neg heq, start, Row.get_set_of_ne _ _ hsel, Row.get_zero]

namespace Chain

variable {r : Row} {t : Terms} {x y z : Register}

theorem limbs_neg_excess (t : Terms) :
    LimbPoly.difference (cells 2 t.z) (LimbPoly.sum (cells 2 t.x) (cells 2 t.y)) =
      (t.excess.map (- ·)).map Felt.ofInt := by
  rw [cells, cells, cells, sum_map_ofInt, difference_map_ofInt, LimbPoly.difference_eq_map_neg]
  rfl

/-- Sound terms that are words carry zero or one, and nothing is left of their sum. -/
theorem holds_of_cells (ht : t.Sound) (hx0 : 0 ≤ t.x) (hy0 : 0 ≤ t.y) (hz0 : 0 ≤ t.z)
    (hx : r.limbs x = cells 2 t.x) (hy : r.limbs y = cells 2 t.y) (hz : r.limbs z = cells 2 t.z)
    (hc : r.limbs Layout.carry = t.carries.map Felt.ofInt) : Holds r x y z := by
  have hdvd := ht.dvd_value_excess
  constructor
  · rw [hx, hy, hz, hc, limbs_neg_excess]
    exact Carry.vanish_residuals_of_dvd hdvd
  · have hbounds : ∀ v ∈ t.excess, -base < v ∧ v < 2 * base - 1 := by
      rw [Terms.excess, LimbPoly.sum_eq_zipWith (by simp), LimbPoly.difference_eq_zipWith (by simp)]
      exact Carry.excess_bounds (Limb.digits_bounds hx0) (Limb.digits_bounds hy0)
        (Limb.digits_bounds hz0)
    have hbits := Carry.quotients_binary (.inl rfl) hbounds (by rwa [zero_add])
    rw [hc]
    intro c hmem
    obtain ⟨q, hq, rfl⟩ := List.mem_map.mp hmem
    rw [Felt.booleanity_eq_zero_iff]
    rcases hbits q hq with rfl | rfl
    · exact .inl rfl
    · exact .inr rfl

/-- The last carry is the multiple of `2^32` by which the summands exceed the sum. -/
theorem compares_of_cells {bit : ℤ} (ht : t.Sound) (hbit : bit = 0 ∨ bit = 1)
    (hsum : t.x + t.y - t.z = base ^ 2 * bit) (hout : r.limbs Layout.output = cells 2 bit)
    (hc : r.limbs Layout.carry = t.carries.map Felt.ofInt) : Compares r := by
  have hlast : t.carries.getLastD 0 = bit := by
    have hmul := @Carry.add_value_eq_mul_last 0 t.excess
      (by rw [zero_add]; exact ht.dvd_value_excess)
    rw [zero_add, ht.value_excess, hsum, Terms.length_excess] at hmul
    exact (mul_left_cancel₀ (by decide) hmul).symm
  obtain ⟨c0, c1, hcarries⟩ : ∃ c0 c1, t.carries = [c0, c1] :=
    List.length_eq_two.mp (by simp [Terms.carries])
  rw [hcarries] at hc hlast
  have htop : r.get Layout.topCarry = Felt.ofInt c1 := (List.cons.inj (List.cons.inj hc).2).1
  obtain rfl : c1 = bit := hlast
  have hbitcells : cells 2 c1 = [Felt.ofInt c1, 0] := by
    rcases hbit with rfl | rfl <;> rfl
  rw [hbitcells] at hout
  obtain ⟨hlow, hhigh⟩ := List.cons.inj hout
  exact ⟨hlow.trans htop.symm, (List.cons.inj hhigh).1⟩

/-! The registers of a recorded chain. -/

theorem limbs_operand0_filled (r : Row) (a b : ℤ) (t : Terms) :
    (filled r a b t).limbs Layout.operand0 = cells 2 a := by
  unfold filled
  split <;> simp (disch := decide) only [Row.limbs_write_of_disjoint, Row.limbs_write_cells]

theorem limbs_operand1_filled (r : Row) (a b : ℤ) (t : Terms) :
    (filled r a b t).limbs Layout.operand1 = cells 2 b := by
  unfold filled
  split <;> simp (disch := decide) only [Row.limbs_write_of_disjoint, Row.limbs_write_cells]

theorem limbs_output_filled (r : Row) (a b : ℤ) (t : Terms) :
    (filled r a b t).limbs Layout.output = cells 2 t.output := by
  unfold filled
  split <;> simp (disch := decide) only [Row.limbs_write_of_disjoint, Row.limbs_write_cells]

theorem limbs_carry_filled (r : Row) (a b : ℤ) (t : Terms) :
    (filled r a b t).limbs Layout.carry = t.carries.map Felt.ofInt := by
  have hlen : (t.carries.map Felt.ofInt).length = Layout.carry.length := by
    simp [Terms.carries, Layout.carry]
  unfold filled
  split
  · rw [Row.limbs_write_of_disjoint _ _ (by decide), Row.limbs_write_self _ (by decide) hlen]
  · rw [Row.limbs_write_self _ (by decide) hlen]

theorem limbs_wrapped_filled (r : Row) (a b : ℤ) {d : ℤ} (h : t.wrapped = some d) :
    (filled r a b t).limbs Layout.wrapped = cells 2 d := by
  rw [filled, h]
  exact Row.limbs_write_cells _ d (by decide) (by decide)

theorem limbs_filled (r : Row) (a b : ℤ) (t : Terms) {register : Register}
    (h : ∀ c ∈ register, (c ∉ Layout.operand0 ∧ c ∉ Layout.operand1) ∧ c ∉ Layout.output ∧
      c ∉ Layout.carry ∧ c ∉ Layout.wrapped) :
    (filled r a b t).limbs register = r.limbs register := by
  have h0 : ∀ c ∈ register, c ∉ Layout.operand0 := fun c hc => (h c hc).1.1
  have h1 : ∀ c ∈ register, c ∉ Layout.operand1 := fun c hc => (h c hc).1.2
  have hout : ∀ c ∈ register, c ∉ Layout.output := fun c hc => (h c hc).2.1
  have hcarry : ∀ c ∈ register, c ∉ Layout.carry := fun c hc => (h c hc).2.2.1
  have hwrapped : ∀ c ∈ register, c ∉ Layout.wrapped := fun c hc => (h c hc).2.2.2
  unfold filled
  split <;>
    simp only [Row.limbs_write_of_disjoint _ _ h0, Row.limbs_write_of_disjoint _ _ h1,
      Row.limbs_write_of_disjoint _ _ hout, Row.limbs_write_of_disjoint _ _ hcarry,
      Row.limbs_write_of_disjoint _ _ hwrapped]

/-- The difference of words wraps around exactly when the first is the smaller. -/
theorem wrap_sub_add (a b : Word) :
    wrap (a.val - b.val) + b.val - a.val = base ^ 2 * if a.val < b.val then 1 else 0 := by
  have ha := a.property
  have hb := b.property
  unfold wrap
  simp only [wordLimit, base] at *
  split <;> omega

theorem holds_filled {a b : Word} {op : WordOp} {t : Terms} (r next : Row)
    (h : terms? a.val b.val op = some t) :
    (Operator.word op).Holds ⟨filled r a.val b.val t, next⟩ := by
  have ht := sound_of_terms (Fits.word a) (Fits.word b) h
  have hbit (p : Prop) [Decidable p] :
      (if p then 1 else 0 : ℤ) = 0 ∨ (if p then 1 else 0 : ℤ) = 1 := by
    split
    · exact .inr rfl
    · exact .inl rfl
  have hcarry := limbs_carry_filled r a.val b.val t
  have hout := limbs_output_filled r a.val b.val t
  have h0 := limbs_operand0_filled r a.val b.val t
  have h1 := limbs_operand1_filled r a.val b.val t
  have hw {d : ℤ} (hd : t.wrapped = some d) := limbs_wrapped_filled r a.val b.val hd
  cases op <;> cases h
  case add =>
    exact holds_of_cells ht a.property.1 b.property.1 (wrap_nonneg _) h0 h1 hout hcarry
  case sub =>
    exact holds_of_cells ht (wrap_nonneg _) b.property.1 a.property.1 hout h1 h0 hcarry
  case lt =>
    exact ⟨holds_of_cells ht (wrap_nonneg _) b.property.1 a.property.1 (hw rfl) h1 h0 hcarry,
      compares_of_cells ht (hbit _) (wrap_sub_add a b) hout hcarry⟩
  case gt =>
    exact ⟨holds_of_cells ht (wrap_nonneg _) a.property.1 b.property.1 (hw rfl) h0 h1 hcarry,
      compares_of_cells ht (hbit _) (wrap_sub_add b a) hout hcarry⟩

end Chain

namespace Product

/-! The registers of a recorded product. -/

theorem limbs_filled (r : Row) (x y : ℤ) {register : Register}
    (h : ∀ c ∈ register, c ∉ Layout.output ∧ c ∉ Layout.carry) :
    (filled r x y).limbs register = r.limbs register := by
  rw [filled, Row.limbs_write_of_disjoint _ _ fun c hc => (h c hc).2,
    Row.limbs_write_of_disjoint _ _ fun c hc => (h c hc).1]

theorem limbs_output_filled (r : Row) (x y : ℤ) :
    (filled r x y).limbs Layout.output = cells 2 (wrap (x * y)) := by
  simp (disch := decide) only [filled, Row.limbs_write_of_disjoint, Row.limbs_write_cells]

theorem limbs_carry_filled (r : Row) (x y : ℤ) :
    (filled r x y).limbs Layout.carry = (Carry.quotients 0 (excess x y)).map Felt.ofInt :=
  Row.limbs_write_self _ (by decide) (by simp [Layout.carry])

/-- Output less product, limb by limb, is the negated excess of the product over the output. -/
theorem difference_cells (x y z : ℤ) :
    LimbPoly.difference (cells 2 z) ((LimbPoly.product (cells 2 x) (cells 2 y)).take 2) =
      ((LimbPoly.difference ((LimbPoly.product (digits 2 x) (digits 2 y)).take 2)
        (digits 2 z)).map (- ·)).map Felt.ofInt := by
  rw [cells, cells, cells, product_map_ofInt, ← List.map_take, difference_map_ofInt,
    LimbPoly.difference_eq_map_neg]

/-- A product recorded next to its factors stands in the relation of products. -/
theorem holds_filled {r : Row} {left right : Register} {x y : ℤ} (hx : Fits 2 x) (hy : Fits 2 y)
    (hl : r.limbs left = cells 2 x) (hr : r.limbs right = cells 2 y)
    (hleft : ∀ c ∈ left, c ∉ Layout.output ∧ c ∉ Layout.carry)
    (hright : ∀ c ∈ right, c ∉ Layout.output ∧ c ∉ Layout.carry) :
    Holds (filled r x y) left right := by
  rw [Holds, limbs_filled r x y hleft, limbs_filled r x y hright, hl, hr, limbs_output_filled,
    limbs_carry_filled, difference_cells]
  refine Carry.vanish_residuals_of_dvd ?_
  change base ^ (excess x y).length ∣ Limb.value (excess x y)
  rw [length_excess]
  exact dvd_value_excess hx hy

end Product

namespace Remainder

theorem vanish_cells_zero (n : ℕ) : Vanish (cells n 0) := by
  induction n with
  | zero => exact vanish_nil
  | succ n ih => exact vanish_cons.mpr ⟨rfl, ih⟩

/-- The flag of a zero modulus is set at times and never cleared. -/
theorem get_flag_filled (next : Row) {m : ℤ} (r : ℤ) (hm : m ≠ 0) :
    (filled next m r).get Layout.modulusIsZero = next.get Layout.modulusIsZero := by
  rw [filled, if_neg hm, Row.get_write_of_not_mem _ _ (by decide),
    Row.get_set_of_ne _ _ (by decide)]

/-- The gap of a remainder is a number of two limbs. -/
theorem inRange_gap_filled {next : Row} {z m : ℤ} (h0 : 0 ≤ m)
    (hnext : m = 0 → Limb.InRange (next.limbs Layout.gap)) :
    Limb.InRange ((filled next m (remainder z m)).limbs Layout.gap) := by
  by_cases hm : m = 0
  · rw [filled, if_pos hm, Row.limbs_set_of_not_mem _ _ (by decide)]
    exact hnext hm
  · have hlt := remainder_lt (z := z) (lt_of_le_of_ne h0 (Ne.symm hm))
    rw [limbs_gap_filled next _ hm]
    exact Limb.inRange_cells (by omega)

/-- The inverse and the gap fit a remainder in range, and what the carries settle stays settled. -/
theorem proper_filled {next : Row} {m r : ℤ} {p : List Felt}
    (hflag : next.get Layout.modulusIsZero = 0) (h0 : 0 ≤ r) (hr : r < m) (hm : m < wordLimit)
    (hcarries : Vanish (Carry.residuals p ((next.limbs Layout.productCarry).take (p.length - 1)))) :
    Proper (filled next m r) (cells 2 m) (cells 2 r) p := by
  have hz : m ≠ 0 := by omega
  have hgap := limbs_gap_filled next r hz
  have hmodulus := Limb.valueFelt_cells (fits_of_bounds (h0.trans hr.le) hm)
  have hremainder := Limb.valueFelt_cells (fits_of_bounds h0 (hr.trans hm))
  have hdifference : Limb.valueFelt (cells 2 (m - r - 1)) = Felt.ofInt (m - r - 1) :=
    Limb.valueFelt_cells (fits_of_bounds (by omega) (by omega))
  have hne : Felt.ofInt m ≠ 0 := Limb.ofInt_ne_zero ⟨h0.trans hr.le, hm⟩ hz
  have hrow : filled next m r = _ := if_neg hz
  refine ⟨?_, ?_, ?_, ?_⟩
  · rw [get_flag_filled next r hz, hflag]
  · rw [hrow, Row.get_write_of_not_mem _ _ (by decide), Row.get_set_self, hmodulus]
    exact Felt.mul_inv_self hne
  · rw [hrow, Row.limbs_write_of_disjoint _ _ (by decide), Row.limbs_set_of_not_mem _ _ (by decide)]
    exact hcarries
  · rw [hgap, hmodulus, hremainder, hdifference]
    simp

/-- Whatever polynomial of value zero the carries are those of, the recorded row shows the modulus
zero or bounds the remainder, unless a flag was left set that does not belong to the modulus. -/
theorem holds_filled_iff {next : Row} {m z : ℤ} {p : List ℤ} (n : ℕ) (h0 : 0 ≤ m) (hm : Fits 2 m)
    (hp : p ≠ []) (hlen : p.length ≤ 5) (hvalue : m ≠ 0 → Limb.value p = 0) {recorded : Row}
    (hrecorded : recorded = filled (if m = 0 then next else
      next.write Layout.productCarry ((Carry.root p).map Felt.ofInt)) m (remainder z m)) :
    (Degenerate recorded (cells 2 m) (cells 2 (remainder z m)) (cells n (quotient z m)) ∨
      Proper recorded (cells 2 m) (cells 2 (remainder z m)) (p.map Felt.ofInt)) ↔
      m = 0 ∨ next.get Layout.modulusIsZero = 0 := by
  rw [hrecorded]
  by_cases hz : m = 0
  · subst hz
    refine iff_of_true (.inl ⟨?_, rfl, vanish_cells_zero n, vanish_cells_zero 2⟩) (.inl rfl)
    rw [if_pos rfl, filled, if_pos rfl, Row.get_set_self]
  have hpos : 0 < m := lt_of_le_of_ne h0 (Ne.symm hz)
  have hm' := ((Limb.fits_two_iff m).mp hm).2
  have hkept (cs : List Felt) : (next.write Layout.productCarry cs).get Layout.modulusIsZero =
      next.get Layout.modulusIsZero := Row.get_write_of_not_mem _ _ (by decide)
  rw [if_neg hz]
  constructor
  · rintro (hd | hproper)
    · have hmodulus := hd.modulus
      rw [Limb.valueFelt_cells hm] at hmodulus
      exact absurd hmodulus (Limb.ofInt_ne_zero ⟨h0, hm'⟩ hz)
    · have hflag := hproper.flag
      rw [get_flag_filled _ _ hz, hkept] at hflag
      exact .inr hflag
  · intro hflag
    have hflag := hflag.resolve_left hz
    have hfit : ((Carry.root p).map Felt.ofInt).length = (p.map Felt.ofInt).length - 1 := by simp
    have htake := @Row.take_limbs_write next Layout.productCarry
      ((Carry.root p).map Felt.ofInt) (by decide) (by
        simp only [List.length_map, Carry.length_root]
        exact Nat.sub_le_of_le_add hlen)
    refine .inr (proper_filled ?_ (remainder_nonneg h0) (remainder_lt hpos) hm' ?_)
    · rw [hkept, hflag]
    · rw [← hfit, htake]
      exact Carry.vanish_residuals_root hp (hvalue hz)

end Remainder

namespace Division
open Remainder (quotient remainder)

variable {w : Window} {a b output : ℤ}

theorem limbs_filled {register : Register}
    (h : ∀ c ∈ register, c ∉ Layout.output ∧ c ∉ Layout.quotient ∧ c ∉ Layout.remainder) :
    (filled w a b output).row.limbs register = w.row.limbs register := by
  rw [filled, Row.limbs_write_of_disjoint _ _ fun c hc => (h c hc).2.2,
    Row.limbs_write_of_disjoint _ _ fun c hc => (h c hc).2.1,
    Row.limbs_write_of_disjoint _ _ fun c hc => (h c hc).1]

theorem limbs_output_filled (w : Window) (a b output : ℤ) :
    (filled w a b output).row.limbs Layout.output = cells 2 output := by
  simp (disch := decide) only [filled, Row.limbs_write_of_disjoint, Row.limbs_write_cells]

theorem limbs_quotient_filled (w : Window) (a b output : ℤ) :
    (filled w a b output).row.limbs Layout.quotient = cells 2 (quotient a b) := by
  simp (disch := decide) only [filled, Row.limbs_write_of_disjoint, Row.limbs_write_cells]

theorem limbs_remainder_filled (w : Window) (a b output : ℤ) :
    (filled w a b output).row.limbs Layout.remainder = cells 2 (remainder a b) := by
  simp (disch := decide) only [filled, Row.limbs_write_cells]

/-- A division recorded next to its dividend and its divisor stands in the relation of divisions,
unless the window had the flag set and the divisor is not zero. -/
theorem holds_filled_iff {x y selected : Register} (ha : Fits 2 a) (h0 : 0 ≤ b) (hb : Fits 2 b)
    (hx : (filled w a b output).row.limbs x = cells 2 a)
    (hy : (filled w a b output).row.limbs y = cells 2 b)
    (hs : (filled w a b output).row.limbs selected = cells 2 output) :
    Holds (filled w a b output) x y selected ↔
      b = 0 ∨ w.next.get Layout.modulusIsZero = 0 := by
  have hlen := length_remainderPolynomial a b
  have hpoly : polynomial (cells 2 a) (cells 2 b) (cells 2 (quotient a b))
      (cells 2 (remainder a b)) = (remainderPolynomial a b).map Felt.ofInt :=
    polynomial_map_ofInt _ _ _ _
  have hdivision := Remainder.holds_filled_iff 2 h0 hb (List.ne_nil_of_length_pos (by omega))
    (by omega) (value_remainderPolynomial ha hb) (show (filled w a b output).next = _ from rfl)
  rw [← hpoly, ← limbs_quotient_filled w a b output, ← limbs_remainder_filled w a b output, ← hx,
    ← hy] at hdivision
  rw [← hdivision]
  exact ⟨fun h => h.division, fun h => ⟨h, (limbs_output_filled _ _ _ _).trans hs.symm⟩⟩

end Division

namespace Residue
open Remainder (quotient remainder)

section Written
variable (row : Row) (a b m output quotient : ℤ)

theorem limbs_operand0_written :
    (written row a b m output quotient).limbs Layout.operand0 = cells 2 a := by
  simp (disch := decide) only [written, Row.limbs_write_of_disjoint, Row.limbs_write_cells]

theorem limbs_operand1_written :
    (written row a b m output quotient).limbs Layout.operand1 = cells 2 b := by
  simp (disch := decide) only [written, Row.limbs_write_of_disjoint, Row.limbs_write_cells]

theorem limbs_operand2_written :
    (written row a b m output quotient).limbs Layout.operand2 = cells 2 m := by
  simp (disch := decide) only [written, Row.limbs_write_of_disjoint, Row.limbs_write_cells]

theorem limbs_output_written :
    (written row a b m output quotient).limbs Layout.output = cells 2 output := by
  simp (disch := decide) only [written, Row.limbs_write_of_disjoint, Row.limbs_write_cells]

theorem limbs_wideQuotient_written :
    (written row a b m output quotient).limbs Layout.wideQuotient = cells 4 quotient := by
  simp (disch := decide) only [written, Row.limbs_write_cells]

theorem limbs_selectors_written :
    (written row a b m output quotient).limbs Layout.selectors = row.limbs Layout.selectors := by
  simp (disch := decide) only [written, Row.limbs_write_of_disjoint]

/-- The relation of residues, for the row written and any second row. -/
theorem holds_written_iff (op : ResidueOp) (next : Row) :
    Holds ⟨written row a b m output quotient, next⟩ op ↔
      Remainder.Degenerate next (cells 2 m) (cells 2 output) (cells 4 quotient) ∨
        Remainder.Proper next (cells 2 m) (cells 2 output)
          ((polynomial op (digits 2 a) (digits 2 b) (digits 2 m) (digits 2 output)
            (digits 4 quotient)).map Felt.ofInt) := by
  rw [Holds, limbs_operand0_written, limbs_operand1_written, limbs_operand2_written,
    limbs_output_written, limbs_wideQuotient_written, ← polynomial_map_ofInt]
  rfl

end Written

theorem holds_filled_iff {w : Window} {op : ResidueOp} {a b m : ℤ} (ha : Fits 2 a) (hb : Fits 2 b)
    (h0 : 0 ≤ m) (hm : Fits 2 m) :
    Holds (filled w op a b m) op ↔ m = 0 ∨ w.next.get Layout.modulusIsZero = 0 := by
  have hlen := length_remainderPolynomial op a b m
  refine (holds_written_iff _ _ _ _ _ _ op _).trans ?_
  exact Remainder.holds_filled_iff 4 h0 hm (List.ne_nil_of_length_pos (by omega)) hlen.le
    (value_remainderPolynomial op ha hb hm) rfl

end Residue

/-! Whole operations. -/

namespace WordOp
variable {op : WordOp}

theorem holds_iff_of_multiplies (h : op.Multiplies) (w : Window) : (Operator.word op).Holds w ↔
    Product.Holds w.row op.leftRegister op.rightRegister := by
  rcases h with rfl | rfl <;> exact Iff.rfl

theorem holds_multiplied (h : op.Multiplies) (r next : Row) (a b : Word) :
    (Operator.word op).Holds ⟨op.multiplied r a b, next⟩ := by
  rcases h with rfl | rfl
  · refine Product.holds_filled (Fits.word a) (Fits.word b) ?_ ?_ (by decide) (by decide) <;>
      simp (disch := decide) only [Row.limbs_write_of_disjoint, Row.limbs_write_cells]
  · refine Product.holds_filled (Fits.word b) (Shift.fits_factor a.val) ?_ ?_ (by decide)
      (by decide) <;>
      simp (disch := decide) only [Shift.operands, Row.limbs_write_of_disjoint,
        Row.limbs_write_cells]

theorem selects_multiplied (h : op.Multiplies) {r : Row} (hr : r.Selects (.word op)) (a b : Word) :
    (op.multiplied r a b).Selects (.word op) := by
  apply hr.of_limbs
  rcases h with rfl | rfl <;>
    simp (disch := decide) only [multiplied, Shift.operands, Product.limbs_filled,
      Row.limbs_write_of_disjoint]

theorem holds_iff_of_divides (h : op.Divides) (w : Window) : (Operator.word op).Holds w ↔
    Division.Holds w op.dividendRegister op.divisorRegister op.selectedRegister := by
  rcases h with rfl | rfl | rfl <;> exact Iff.rfl

theorem limbs_divided {w : Window} {a b : Word} {register : Register}
    (h : ∀ c ∈ register, c ∉ Layout.output ∧ c ∉ Layout.quotient ∧ c ∉ Layout.remainder) :
    (op.divided w a b).row.limbs register = (op.operands w.row a.val b.val).limbs register :=
  Division.limbs_filled h

theorem limbs_dividendRegister_divided (op : WordOp) (w : Window) (a b : Word) :
    (op.divided w a b).row.limbs op.dividendRegister = cells 2 (op.dividend a.val b.val) :=
  (limbs_divided (by cases op <;> decide)).trans (op.limbs_dividendRegister _ _ _)

theorem limbs_divisorRegister_divided (op : WordOp) (w : Window) (a b : Word) :
    (op.divided w a b).row.limbs op.divisorRegister = cells 2 (op.divisor a.val b.val) :=
  (limbs_divided (by cases op <;> decide)).trans (op.limbs_divisorRegister _ _ _)

theorem limbs_selectedRegister_divided (h : op.Divides) (w : Window) (a b : Word) :
    (op.divided w a b).row.limbs op.selectedRegister = cells 2 (op.result a.val b.val) := by
  have hselect := select_of_divides h a b
  rcases h with rfl | rfl | rfl
  · exact (Division.limbs_quotient_filled _ _ _ _).trans
      (congrArg (cells 2) (Option.some.inj hselect))
  · exact (Division.limbs_remainder_filled _ _ _ _).trans
      (congrArg (cells 2) (Option.some.inj hselect))
  · exact (Division.limbs_quotient_filled _ _ _ _).trans
      (congrArg (cells 2) (Option.some.inj hselect))

theorem holds_divided_iff (h : op.Divides) (w : Window) (a b : Word) :
    (Operator.word op).Holds (op.divided w a b) ↔
      op.divisor a.val b.val = 0 ∨ w.next.get Layout.modulusIsZero = 0 := by
  rw [holds_iff_of_divides h]
  exact Division.holds_filled_iff (op.fits_dividend a b) (op.divisor_bounds a b).1
    (op.fits_divisor a b) (op.limbs_dividendRegister_divided w a b)
    (op.limbs_divisorRegister_divided w a b) (limbs_selectedRegister_divided h w a b)

theorem holds_divided (h : op.Divides) {w : Window} (hflag : w.next.get Layout.modulusIsZero = 0)
    (a b : Word) : (Operator.word op).Holds (op.divided w a b) :=
  (holds_divided_iff h w a b).mpr (.inr hflag)

theorem selects_divided {w : Window} (h : w.row.Selects (.word op)) (a b : Word) :
    (op.divided w a b).row.Selects (.word op) :=
  h.of_limbs ((limbs_divided (by decide)).trans (op.limbs_operands _ _ _ (by decide)))

end WordOp

namespace Operation

/-- The number that is divided by: a divisor, the factor of a shift, or a modulus. -/
def divisor : Operation → ℤ
  | word o => o.op.divisor o.first.val o.second.val
  | residue o => o.modulus.val

/-- The gadget of an operation gets from one window to another. The selectors are left alone, and
the operator's relation is kept unless a flag was set beforehand that the divisor does not call
for. -/
structure Leaves (o : Operation) (w v : Window) : Prop where
  run : o.record.on w = (.ok (), v)
  selects : v.row.Selects o.operator
  holds_iff : o.operator.Holds v ↔
    (o.operator.isTwoRow = true → o.divisor = 0 ∨ w.next.get Layout.modulusIsZero = 0)

section Leaves
variable {op : WordOp} {w : Window}

theorem leaves_of_terms (hw : w.row.Selects (.word op)) {a b : Word} {t : Chain.Terms}
    (ht : Chain.terms? a.val b.val op = some t) :
    (word (op.operation a b)).Leaves w ⟨Chain.filled w.row a.val b.val t, w.next⟩ where
  run := WordOp.on_record_of_terms w ht
  selects := hw.of_limbs (Chain.limbs_filled w.row a.val b.val t (by decide))
  holds_iff := by
    refine iff_of_true (Chain.holds_filled w.row w.next ht) ?_
    intro htwo
    cases op <;> cases ht
    case add | sub | lt | gt => exact Bool.noConfusion htwo

theorem leaves_of_multiplies (hw : w.row.Selects (.word op)) (h : op.Multiplies) (a b : Word) :
    (word (op.operation a b)).Leaves w ⟨op.multiplied w.row a b, w.next⟩ where
  run := WordOp.on_record_of_multiplies w h a b
  selects := WordOp.selects_multiplied h hw a b
  holds_iff := by
    refine iff_of_true (WordOp.holds_multiplied h w.row w.next a b) ?_
    intro htwo
    rcases h with rfl | rfl <;> exact Bool.noConfusion htwo

theorem leaves_of_divides (hw : w.row.Selects (.word op)) (h : op.Divides) (a b : Word) :
    (word (op.operation a b)).Leaves w (op.divided w a b) where
  run := WordOp.on_record_of_divides w h a b
  selects := WordOp.selects_divided hw a b
  holds_iff := by
    have htwo : (Operator.word op).isTwoRow = true := by rcases h with rfl | rfl | rfl <;> rfl
    exact (WordOp.holds_divided_iff h w a b).trans ⟨fun hd _ => hd, fun hd => hd htwo⟩

theorem leaves_residue {op : ResidueOp} (hw : w.row.Selects (.residue op)) (a b m : Word) :
    (residue (op.operation a b m)).Leaves w (Residue.filled w op a.val b.val m.val) where
  run := op.on_record w a b m
  selects := hw.of_limbs (Residue.limbs_selectors_written _ _ _ _ _ _)
  holds_iff :=
    (Residue.holds_filled_iff (Fits.word a) (Fits.word b) m.property.1 (Fits.word m)).trans
      ⟨fun hm _ => hm, fun hm => hm rfl⟩

end Leaves

/-- What the gadget of an operation records keeps the relation of its operator. -/
def Kept (o : Operation) : Prop := ∃ v, o.Records v ∧ v.row.Selects o.operator ∧ o.operator.Holds v

theorem Kept.accepted {o : Operation} (h : o.Kept) :
    ∃ rows, o.rows = .ok rows ∧ Table.accepts rows.window = true := by
  obtain ⟨v, hrecords, hselects, hholds⟩ := h
  refine ⟨_, hrecords.rows, ?_⟩
  rw [hrecords.window]
  exact (Table.accepts_iff_of_selects hselects).mpr hholds

/-- Fresh rows have no flag set. -/
theorem Records.kept {o : Operation} {v : Window} (h : o.Records v)
    (hleaves : o.Leaves (start o.operator) v) : o.Kept :=
  ⟨v, h, hleaves.selects, hleaves.holds_iff.mpr fun _ => .inr rfl⟩

variable {op : WordOp}

theorem kept_of_terms {a b : Word} {t : Chain.Terms}
    (ht : Chain.terms? a.val b.val op = some t) : (word (op.operation a b)).Kept :=
  (WordOp.records_of_terms ht).kept (leaves_of_terms (selects_start _) ht)

theorem kept_of_divides (h : op.Divides) (a b : Word) : (word (op.operation a b)).Kept :=
  (WordOp.records_of_divides h a b).kept (leaves_of_divides (selects_start _) h a b)

theorem kept_of_multiplies (h : op.Multiplies) (a b : Word) :
    (word (op.operation a b)).Kept :=
  (WordOp.records_of_multiplies h a b).kept (leaves_of_multiplies (selects_start _) h a b)

theorem kept_word (op : WordOp) (a b : Word) : (word (op.operation a b)).Kept := by
  obtain ⟨t, ht⟩ | h | h := op.terms_or_multiplies_or_divides a.val b.val
  · exact kept_of_terms ht
  · exact kept_of_multiplies h a b
  · exact kept_of_divides h a b

theorem kept_residue (op : ResidueOp) (a b m : Word) : (residue (op.operation a b m)).Kept :=
  (op.records a b m).kept (leaves_residue (selects_start _) a b m)

/-- Every operator and all words give an operation, the operation gives rows, and the table accepts
the rows. -/
theorem rows_accepted :
    (∀ (op : WordOp) (a b : Word), ∃ o rows,
      ofWords (.operator (.word op)) (.int a.val) (.int b.val) = .ok o ∧
      o.operator = .word op ∧ o.operands = [a, b] ∧ o.rows = .ok rows ∧
      Table.accepts rows.window = true) ∧
    ∀ (op : ResidueOp) (a b m : Word), ∃ o rows,
      ofResidue (.operator (.residue op)) (.int a.val) (.int b.val) (.int m.val) = .ok o ∧
      o.operator = .residue op ∧ o.operands = [a, b, m] ∧ o.rows = .ok rows ∧
      Table.accepts rows.window = true := by
  constructor
  · intro op a b
    obtain ⟨rows, hrows, haccepts⟩ := (kept_word op a b).accepted
    exact ⟨_, rows, ofWords_int op a b, rfl, rfl, hrows, haccepts⟩
  · intro op a b m
    obtain ⟨rows, hrows, haccepts⟩ := (kept_residue op a b m).accepted
    exact ⟨_, rows, ofResidue_int op a b m, rfl, rfl, hrows, haccepts⟩

end Operation
end WordTrace
