import WordTrace.Proofs.Encoding
import WordTrace.Proofs.ProductRange

/-! # What the columns of recorded rows hold

Operands, results, quotients, remainders and gaps are spelled by limbs between zero and the base.
Carries need not be limbs, and each gadget has bounds of its own for them. In a chain they are truth
values, in a product they take seventeen bits at most. A division of words has one carry, of a limb
that is negative or zero, since divisor and quotient have no upper limbs to multiply. The carries of
a residue stay below `2^17` in magnitude, for exact division by the base makes up for coefficients
of two products of limbs.
-/

namespace WordTrace
open Limb (Fits InRange cells digits base)
open LimbPoly (Bounded Nonneg bounded_digits nonneg_digits)
open Remainder (quotient remainder)

namespace Chain

/-- The columns of a chain. -/
structure Ranges (r : Row) : Prop where
  wrapped : InRange (r.limbs Layout.wrapped)
  carry : ∀ c ∈ r.limbs Layout.carry, c = 0 ∨ c = 1

theorem wrapped_nonneg {a b : ℤ} {op : WordOp} {t : Terms} (h : terms? a b op = some t) :
    ∀ d, t.wrapped = some d → 0 ≤ d := by
  intro d hd
  cases op <;> cases h <;> cases hd <;> exact wrap_nonneg _

theorem ranges_filled {a b : Word} {op : WordOp} {t : Terms} {r : Row}
    (hr : InRange (r.limbs Layout.wrapped)) (h : terms? a.val b.val op = some t) :
    Ranges (filled r a.val b.val t) where
  wrapped := by
    cases hw : t.wrapped with
    | none =>
      simp (disch := decide) only [filled, hw, Row.limbs_write_of_disjoint]
      exact hr
    | some d =>
      rw [limbs_wrapped_filled r _ _ hw]
      exact Limb.inRange_cells (wrapped_nonneg h d hw)
  carry := by
    have hholds := holds_filled r .zero h
    have hbinary : ∀ c ∈ (filled r a.val b.val t).limbs Layout.carry, Felt.booleanity c = 0 := by
      cases op <;> cases h
      case add | sub => exact hholds.binary
      case lt | gt => exact hholds.1.binary
    intro c hc
    exact (Felt.booleanity_eq_zero_iff c).mp (hbinary c hc)

end Chain

namespace Product

/-- The carries of a product of two factors. -/
def Ranges (r : Row) (x y : ℤ) : Prop := ∃ low top, r.limbs Layout.carry = [low, top] ∧
  low.val ≤ 65534 ∧ (top.val : ℤ) = x * y / wordLimit - x / base * (y / base) ∧ top.val ≤ 131069

theorem ranges_filled {x y : ℤ} (hx : 0 ≤ x ∧ x < wordLimit) (hy : 0 ≤ y ∧ y < wordLimit)
    (r : Row) : Ranges (filled r x y) x y := by
  obtain ⟨⟨hlow0, hlow⟩, htop0, htop⟩ := carry_bounds hx hy
  have hlow' := Felt.val_ofInt hlow0 (hlow.trans_lt (by decide))
  have htop' := Felt.val_ofInt htop0 (htop.trans_lt (by decide))
  refine ⟨_, _, limbs_carry_filled_words hx hy r, ?_, htop', ?_⟩ <;> omega

end Product

namespace Remainder

theorem limbs_productCarry_filled (next : Row) (m r : ℤ) :
    (filled next m r).limbs Layout.productCarry = next.limbs Layout.productCarry := by
  unfold filled
  split
  · exact Row.limbs_set_of_not_mem _ _ (by decide)
  · rw [Row.limbs_write_of_disjoint _ _ (by decide), Row.limbs_set_of_not_mem _ _ (by decide)]

/-- Where nothing was recorded before there is no gap of another remainder. -/
theorem inRange_gap_fresh {z m : ℤ} (h0 : 0 ≤ m) (carries : List Felt) :
    InRange ((filled (if m = 0 then Row.zero else Row.zero.write Layout.productCarry carries) m
      (remainder z m)).limbs Layout.gap) := by
  refine inRange_gap_filled h0 ?_
  intro hzero
  rw [if_pos hzero]
  exact Row.inRange_zero.limbs _

end Remainder

namespace Division

/-- The columns of a division. -/
structure Ranges (w : Window) : Prop where
  quotient : InRange (w.row.limbs Layout.quotient)
  remainder : InRange (w.row.limbs Layout.remainder)
  gap : InRange (w.next.limbs Layout.gap)
  carry : ∃ c, w.next.limbs Layout.productCarry = [c, 0, 0, 0] ∧ -base < c.signed ∧ c.signed ≤ 0

section Words
variable {a b : ℤ} (ha : 0 ≤ a ∧ a < wordLimit) (hb : 0 ≤ b ∧ b < wordLimit)
include ha hb

theorem remainderPolynomial_eq : remainderPolynomial a b =
    [b % base * (quotient a b % base) + remainder a b % base - a % base,
      Product.cross b (quotient a b) + remainder a b / base - a / base,
      b / base * (quotient a b / base)] := by
  obtain ⟨hq0, hq⟩ := Remainder.quotient_bounds ha.1 ha.2 hb.1
  obtain ⟨hr0, hr⟩ := Remainder.remainder_bounds (z := a) hb.1 hb.2
  rw [remainderPolynomial, Limb.digits_word ha.1 ha.2, Limb.digits_word hb.1 hb.2,
    Limb.digits_word hq0 hq, Limb.digits_word hr0 hr]
  rfl

/-- A product that does not exceed a word has no two upper limbs to multiply. -/
theorem upper_mul_eq_zero (hne : b ≠ 0) : b / base * (quotient a b / base) = 0 := by
  have hq0 := Remainder.quotient_nonneg ha.1 hb.1
  have hr0 := Remainder.remainder_nonneg (z := a) hb.1
  have heq := Remainder.mul_quotient_add_remainder (z := a) hne
  have hlimbs := Product.mul_eq_limbs b (quotient a b)
  obtain ⟨hb0, hb1⟩ := Limb.bounds_of_word hb
  obtain ⟨hq0, hq1⟩ := Limb.bounds_of_word (Remainder.quotient_bounds ha.1 ha.2 hb.1)
  have hlow := Product.limb_mul_bounds hb0 hq0
  have hleft := Product.limb_mul_bounds hb0 hq1
  have hright := Product.limb_mul_bounds hb1 hq0
  have hhigh := Product.limb_mul_bounds hb1 hq1
  rw [Product.cross] at hlimbs
  simp only [wordLimit, base] at *
  omega

/-- The first carry pays for a product of two limbs and a limb, and the last one is the leading
coefficient. -/
theorem root_remainderPolynomial (hne : b ≠ 0) :
    ∃ c, Carry.root (remainderPolynomial a b) = [c, 0] ∧ -base < c ∧ c ≤ 0 := by
  have hvalue := value_remainderPolynomial (fits_of_bounds ha.1 ha.2) (fits_of_bounds hb.1 hb.2) hne
  have hquotient := Remainder.quotient_bounds ha.1 ha.2 hb.1
  have hremainder := Remainder.remainder_bounds (z := a) hb.1 hb.2
  rw [remainderPolynomial_eq ha hb, upper_mul_eq_zero ha hb hne] at hvalue ⊢
  obtain ⟨hdvd, hlast⟩ := @Carry.root_last [_, _] _ hvalue
  have hfirst := ((Carry.dvd_value_cons_iff _ _ _).mp hdvd).1
  have hlow := Product.limb_mul_bounds (Limb.bounds_of_word hb).1 (Limb.bounds_of_word hquotient).1
  have ha0 := (Limb.bounds_of_word ha).1
  have hr0 := (Limb.bounds_of_word hremainder).1
  refine ⟨_, congrArg (fun last => [_, last]) hlast, ?_, ?_⟩ <;>
  · simp only [base] at *
    omega

theorem ranges_filled (r : Row) (output : ℤ) : Ranges (filled ⟨r, .zero⟩ a b output) where
  quotient := by
    rw [limbs_quotient_filled]
    exact Limb.inRange_cells (Remainder.quotient_nonneg ha.1 hb.1)
  remainder := by
    rw [limbs_remainder_filled]
    exact Limb.inRange_cells (Remainder.remainder_nonneg hb.1)
  gap := Remainder.inRange_gap_fresh hb.1 _
  carry := by
    have hlimbs : (filled ⟨r, .zero⟩ a b output).next.limbs Layout.productCarry = _ :=
      Remainder.limbs_productCarry_filled _ _ _
    rw [hlimbs]
    by_cases hzero : b = 0
    · rw [if_pos hzero]
      exact ⟨0, rfl, by decide, by decide⟩
    · obtain ⟨c, hroot, hlow, hhigh⟩ := root_remainderPolynomial ha hb hzero
      have hsigned : (Felt.ofInt c).signed = c :=
        Felt.signed_ofInt (by simp only [base, prime] at *; omega)
      rw [if_neg hzero, hroot]
      refine ⟨Felt.ofInt c, ?_, ?_, ?_⟩
      · simp [Layout.productCarry, Layout.auxiliary0, Row.limbs, Row.write, Row.get_set_of_ne]
      · rwa [hsigned]
      · rwa [hsigned]

end Words
end Division

namespace Residue

/-- The columns of a residue. The limbs of a quotient have one sign, and a difference only may have
a quotient below zero. -/
structure Ranges (w : Window) (op : ResidueOp) : Prop where
  quotient : op ≠ .sub → InRange (w.row.limbs Layout.wideQuotient)
  magnitude : ∀ q ∈ w.row.limbs Layout.wideQuotient, |q.signed| < base
  sign : (∀ q ∈ w.row.limbs Layout.wideQuotient, 0 ≤ q.signed) ∨
    ∀ q ∈ w.row.limbs Layout.wideQuotient, q.signed ≤ 0
  gap : InRange (w.next.limbs Layout.gap)
  carry : ∀ c ∈ w.next.limbs Layout.productCarry, |c.signed| < 131072

theorem exact_nonneg {op : ResidueOp} (hop : op ≠ .sub) (a b : Word) :
    0 ≤ op.exact a.val b.val := by
  cases op with
  | add => exact add_nonneg a.property.1 b.property.1
  | mul => exact mul_nonneg a.property.1 b.property.1
  | sub => exact absurd rfl hop

/-- The coefficients of both sides are of one sign but for a difference, whose coefficients are
small instead. -/
theorem bounded_remainderPolynomial (op : ResidueOp) (a b m : Word) :
    Bounded (65535 * 131072) (remainderPolynomial op a.val b.val m.val) := by
  have ha := bounded_digits 2 a.val
  have hb := bounded_digits 2 b.val
  have ha0 := nonneg_digits 2 a.property.1
  have hb0 := nonneg_digits 2 b.property.1
  have hsum := ((bounded_digits 2 m.val).product
    (bounded_digits 4 (quotient (op.exact a.val b.val) m.val))).sum
      (bounded_digits 2 (remainder (op.exact a.val b.val) m.val))
  rw [Limb.length_digits] at hsum
  have hsum0 (hop : op ≠ .sub) := ((nonneg_digits 2 m.property.1).product
    (nonneg_digits 4 (Remainder.quotient_nonneg (exact_nonneg hop a b) m.property.1))).sum
      (nonneg_digits 2 (Remainder.remainder_nonneg (z := op.exact a.val b.val) m.property.1))
  cases op with
  | add =>
    exact (hsum.mono (by decide)).difference_of_nonneg ((ha.sum hb).mono (by decide))
      (hsum0 (by decide)) (ha0.sum hb0)
  | mul =>
    have hproduct := ha.product hb
    rw [Limb.length_digits] at hproduct
    exact (hsum.mono (by decide)).difference_of_nonneg (hproduct.mono (by decide))
      (hsum0 (by decide)) (ha0.product hb0)
  | sub =>
    -- the quotient may be negative, and the bound is used up to the last bit
    exact (hsum.difference (ha.difference_of_nonneg hb ha0 hb0)).mono (by decide)

theorem bounded_root_remainderPolynomial (op : ResidueOp) (a b m : Word) (hm : m.val ≠ 0) :
    Bounded 131071 (Carry.root (remainderPolynomial op a.val b.val m.val)) := by
  have hlen := length_remainderPolynomial op a.val b.val m.val
  have hvalue := value_remainderPolynomial op (Fits.word a) (Fits.word b) (Fits.word m) hm
  exact Carry.bounded_root (List.ne_nil_of_length_pos (by omega)) hvalue
    (bounded_remainderPolynomial op a b m)

theorem limbs_wideQuotient_filled (w : Window) (op : ResidueOp) (a b m : ℤ) :
    (filled w op a b m).row.limbs Layout.wideQuotient = cells 4 (quotient (op.exact a b) m) :=
  limbs_wideQuotient_written _ _ _ _ _ _

/-- What holds of the limbs of the quotient holds of its cells, read back as signed integers. -/
theorem forall_wideQuotient_filled {P : ℤ → Prop} {w : Window} {op : ResidueOp} {a b m : ℤ}
    (h : ∀ d ∈ digits 4 (quotient (op.exact a b) m), P d) :
    ∀ q ∈ (filled w op a b m).row.limbs Layout.wideQuotient, P q.signed := by
  rw [← Limb.map_signed_cells] at h
  rw [limbs_wideQuotient_filled]
  exact List.forall_mem_map.mp h

theorem ranges_filled (r : Row) (op : ResidueOp) (a b m : Word) :
    Ranges (filled ⟨r, .zero⟩ op a.val b.val m.val) op where
  quotient hop := by
    rw [limbs_wideQuotient_filled]
    exact Limb.inRange_cells (Remainder.quotient_nonneg (exact_nonneg hop a b) m.property.1)
  magnitude := forall_wideQuotient_filled fun _ hd => Limb.abs_lt_of_mem_digits hd
  sign := by
    rcases le_total 0 (quotient (op.exact a.val b.val) m.val) with h | h
    · exact .inl (forall_wideQuotient_filled fun _ hd => Limb.nonneg_of_mem_digits h hd)
    · exact .inr (forall_wideQuotient_filled fun _ hd => Limb.nonpos_of_mem_digits h hd)
  gap := Remainder.inRange_gap_fresh m.property.1 _
  carry := by
    have hlimbs : (filled ⟨r, .zero⟩ op a.val b.val m.val).next.limbs Layout.productCarry = _ :=
      Remainder.limbs_productCarry_filled _ _ _
    have hlen := length_remainderPolynomial op a.val b.val m.val
    rw [hlimbs]
    by_cases hzero : m.val = 0
    · have hfresh : ∀ c ∈ Row.zero.limbs Layout.productCarry, |c.signed| < 131072 := by decide
      rw [if_pos hzero]
      exact hfresh
    · have hbound := bounded_root_remainderPolynomial op a b m hzero
      rw [if_neg hzero, Row.limbs_write_self _ (by decide) (by simp [hlen]; rfl)]
      intro c hc
      obtain ⟨q, hq, rfl⟩ := List.mem_map.mp hc
      have hq := hbound q hq
      have hsigned : (Felt.ofInt q).signed = q :=
        Felt.signed_ofInt (by simp only [prime]; omega)
      rw [hsigned, abs_lt]
      omega

end Residue

/-! Whole operations. -/

namespace WordOp

/-- The factors of an operator that multiplies. -/
def factors : WordOp → ℤ → ℤ → ℤ × ℤ
  | shl, amount, z => (z, Shift.factor amount)
  | _, a, b => (a, b)

end WordOp

namespace Operation

/-- The ranges of all columns that the gadget of an operation fills. -/
structure Ranges (o : Operation) (rows : Rows) : Prop where
  operand0 : InRange (rows.row.limbs Layout.operand0)
  operand1 : InRange (rows.row.limbs Layout.operand1)
  operand2 : InRange (rows.row.limbs Layout.operand2)
  output : InRange (rows.row.limbs Layout.output)
  chain : ∀ p, o = word p → p.op.Adds → Chain.Ranges rows.row
  product : ∀ p, o = word p → p.op.Multiplies → Product.Ranges rows.row
    (p.op.factors p.first.val p.second.val).1 (p.op.factors p.first.val p.second.val).2
  division : ∀ p, o = word p → p.op.Divides → Division.Ranges rows.window
  residue : ∀ p, o = residue p → Residue.Ranges rows.window p.op

namespace Records
variable {p : WordOperation} {v : Window}

theorem chain_ranges (hv : (word p).Records v) (h : p.op.Adds) : Chain.Ranges v.row := by
  obtain ⟨t, ht⟩ := WordOp.exists_terms h p.first.val p.second.val
  rw [← word_operation p] at hv
  rw [hv.unique (WordOp.records_of_terms ht)]
  exact Chain.ranges_filled ((inRange_start _).limbs _) ht

theorem product_ranges (hv : (word p).Records v) (h : p.op.Multiplies) : Product.Ranges v.row
    (p.op.factors p.first.val p.second.val).1 (p.op.factors p.first.val p.second.val).2 := by
  rw [← word_operation p] at hv
  rw [hv.unique (WordOp.records_of_multiplies h p.first p.second)]
  rcases h with h | h <;> rw [h]
  · exact Product.ranges_filled p.first.property p.second.property _
  · exact Product.ranges_filled p.second.property (Shift.factor_bounds p.first.val) _

theorem division_ranges (hv : (word p).Records v) (h : p.op.Divides) : Division.Ranges v := by
  rw [← word_operation p] at hv
  rw [hv.unique (WordOp.records_of_divides h p.first p.second)]
  exact Division.ranges_filled (p.op.dividend_bounds _ _) (p.op.divisor_bounds _ _) _ _

theorem residue_ranges {p : ResidueOperation} (hv : (residue p).Records v) :
    Residue.Ranges v p.op := by
  rw [← residue_operation p] at hv
  rw [hv.unique (p.op.records p.first p.second p.modulus)]
  exact Residue.ranges_filled _ _ _ _ _

end Records

theorem third_nonneg (o : Operation) : 0 ≤ o.third?.getD 0 := by
  cases h : o.third? with
  | none => exact le_rfl
  | some z => exact (third_bounds h).1

/-- The rows of every operation keep to the ranges of their columns. -/
theorem rows_in_ranges (o : Operation) : ∃ rows, o.rows = .ok rows ∧ o.Ranges rows := by
  obtain ⟨v, hv⟩ := o.exists_spelled
  have hwindow := hv.records.window
  refine ⟨_, hv.records.rows, ?_⟩
  constructor
  case operand0 => exact hv.spells.first ▸ Limb.inRange_cells o.first.property.1
  case operand1 => exact hv.spells.second ▸ Limb.inRange_cells o.second.property.1
  case operand2 => exact hv.spells.third ▸ Limb.inRange_cells o.third_nonneg
  case output => exact hv.spells.output ▸ Limb.inRange_cells o.result.property.1
  case chain =>
    rintro p rfl h
    exact hv.records.chain_ranges h
  case product =>
    rintro p rfl h
    exact hv.records.product_ranges h
  case division =>
    rintro p rfl h
    rw [hwindow]
    exact hv.records.division_ranges h
  case residue =>
    rintro p rfl
    rw [hwindow]
    exact hv.records.residue_ranges

end Operation
end WordTrace
