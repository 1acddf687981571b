import WordTrace.Proofs.Carry
import WordTrace.Proofs.Row

/-! # What the gadgets record

Each gadget succeeds on every window as soon as its numbers fit their registers, and the window it
leaves is written down here as a function of the numbers. No carry fails to settle: the numbers were
chosen so that the whole is divisible.
-/

namespace WordTrace
open Limb (Fits cells digits base)

theorem wrap_nonneg (z : ℤ) : 0 ≤ wrap z := Int.emod_nonneg z (by decide)

theorem wrap_lt (z : ℤ) : wrap z < wordLimit := Int.emod_lt_of_pos z (by decide)

theorem fits_wrap (z : ℤ) : Fits 2 (wrap z) := by
  have h0 := wrap_nonneg z
  have h1 := wrap_lt z
  rw [Limb.fits_two_iff]
  omega

theorem dvd_sub_wrap (z : ℤ) : base ^ 2 ∣ z - wrap z := Int.dvd_self_sub_emod

/-- There is one word at a multiple of `2^32` from a number. -/
theorem eq_wrap_of_dvd {x z : ℤ} (hx : 0 ≤ x ∧ x < wordLimit) (h : base ^ 2 ∣ z - x) :
    x = wrap z := by
  unfold wrap
  simp only [wordLimit, base] at *
  omega

theorem fits_of_bounds {z : ℤ} (h0 : 0 ≤ z) (h : z < wordLimit) : Fits 2 z := by
  rw [Limb.fits_two_iff]
  omega

theorem Recorder.on_lift_ok {α : Type} {x : Except Fault α} {a : α} (h : x = .ok a) (w : Window) :
    on (monadLift x : Recorder α) w = (.ok a, w) := by
  rw [h, on_monadLift]

theorem WordOp.ofSelector?_selector (op : WordOp) : ofSelector? op.selector.val = some op := by
  cases op <;> rfl

theorem ResidueOp.ofSelector?_selector (op : ResidueOp) :
    ofSelector? op.selector.val = some op := by
  cases op <;> rfl

open Recorder (on_bind_ok on_lift_ok on_writeWord on_splitWord on_write on_writeDigits)

namespace Chain

/-- The terms fit their registers and add up modulo `2^32`. -/
structure Terms.Sound (t : Terms) : Prop where
  output : Fits 2 t.output
  wrapped : ∀ d ∈ t.wrapped, Fits 2 d
  x : Fits 2 t.x
  y : Fits 2 t.y
  z : Fits 2 t.z
  dvd : base ^ 2 ∣ t.x + t.y - t.z

theorem sound_of_terms {a b : ℤ} {op : WordOp} {t : Terms} (ha : Fits 2 a) (hb : Fits 2 b)
    (h : terms? a b op = some t) : t.Sound := by
  have hbit (p : Prop) [Decidable p] : Fits 2 (if p then 1 else 0) := by split <;> decide
  have hdiff (x y : ℤ) : base ^ 2 ∣ wrap (x - y) + y - x := by
    rw [show wrap (x - y) + y - x = -(x - y - wrap (x - y)) by ring]
    exact (dvd_sub_wrap (x - y)).neg_right
  cases op <;> cases h
  · exact ⟨fits_wrap _, by simp, ha, hb, fits_wrap _, dvd_sub_wrap _⟩
  · exact ⟨fits_wrap _, by simp, fits_wrap _, hb, ha, hdiff a b⟩
  · exact ⟨hbit _, by simpa using fits_wrap _, fits_wrap _, hb, ha, hdiff a b⟩
  · exact ⟨hbit _, by simpa using fits_wrap _, fits_wrap _, ha, hb, hdiff b a⟩

/-- The limbs of the summands less those of the sum. -/
def Terms.excess (t : Terms) : List ℤ :=
  LimbPoly.difference (LimbPoly.sum (digits 2 t.x) (digits 2 t.y)) (digits 2 t.z)

@[simp] theorem Terms.length_excess (t : Terms) : t.excess.length = 2 := by simp [excess]

theorem Terms.Sound.value_excess {t : Terms} (ht : t.Sound) :
    Limb.value t.excess = t.x + t.y - t.z := by
  rw [Terms.excess, LimbPoly.value_difference, LimbPoly.value_sum, Limb.value_digits ht.x,
    Limb.value_digits ht.y, Limb.value_digits ht.z]

theorem Terms.Sound.dvd_value_excess {t : Terms} (ht : t.Sound) :
    base ^ t.excess.length ∣ Limb.value t.excess := by
  rw [ht.value_excess, Terms.length_excess]
  exact ht.dvd

def Terms.carries (t : Terms) : List ℤ := Carry.quotients 0 t.excess

def filled (r : Row) (a b : ℤ) (t : Terms) : Row :=
  let sum := (((r.write Layout.operand0 (cells 2 a)).write Layout.operand1 (cells 2 b)).write
    Layout.output (cells 2 t.output)).write Layout.carry (t.carries.map Felt.ofInt)
  match t.wrapped with
  | some d => sum.write Layout.wrapped (cells 2 d)
  | none => sum

theorem on_fill {a b : ℤ} {t : Terms} (w : Window) (ha : Fits 2 a) (hb : Fits 2 b) (ht : t.Sound) :
    (fill a b t).on w = (.ok (), ⟨filled w.row a b t, w.next⟩) := by
  have hdvd := ht.dvd_value_excess
  rw [Terms.length_excess, Terms.excess, LimbPoly.value_difference, LimbPoly.value_sum] at hdvd
  have hsum : Carry.ofSum (digits 2 t.x) (digits 2 t.y) (digits 2 t.z) = .ok t.carries :=
    Carry.ofSum_of_dvd (by simp) (by simp) (by simpa using hdvd)
  rw [fill, on_bind_ok (on_writeWord w rfl ha), on_bind_ok (on_writeWord _ rfl hb),
    on_bind_ok (on_writeWord _ rfl ht.output), on_bind_ok (on_splitWord _ ht.x),
    on_bind_ok (on_splitWord _ ht.y), on_bind_ok (on_splitWord _ ht.z),
    on_bind_ok (on_lift_ok hsum _),
    on_bind_ok (on_write .current Layout.carry t.carries _ (by simp [Terms.carries, Layout.carry]))]
  cases hw : t.wrapped with
  | none => simp [filled, hw]
  | some d =>
    refine (on_writeWord _ rfl (ht.wrapped d (by simp [hw]))).trans ?_
    simp [filled, hw]

theorem record_selector {a b : ℤ} {op : WordOp} {t : Terms} (h : terms? a b op = some t) :
    record op.selector.val a b = fill a b t := by
  rw [record, WordOp.ofSelector?_selector, Option.bind_some, h]

theorem on_record {a b : ℤ} {op : WordOp} {t : Terms} (w : Window) (ha : Fits 2 a)
    (hb : Fits 2 b) (h : terms? a b op = some t) :
    (record op.selector.val a b).on w = (.ok (), ⟨filled w.row a b t, w.next⟩) := by
  rw [record_selector h]
  exact on_fill w ha hb (sound_of_terms ha hb h)

end Chain

namespace Product

/-- The coefficients of a product in the two lowest limbs, less the limbs of the output. -/
def excess (left right : ℤ) : List ℤ :=
  LimbPoly.difference ((LimbPoly.product (digits 2 left) (digits 2 right)).take 2)
    (digits 2 (wrap (left * right)))

theorem length_product_digits (left right : ℤ) :
    (LimbPoly.product (digits 2 left) (digits 2 right)).length = 3 := by
  have h (z : ℤ) : digits 2 z ≠ [] := List.ne_nil_of_length_pos (by simp)
  rw [LimbPoly.length_product (h left) (h right), Limb.length_digits, Limb.length_digits]

@[simp] theorem length_excess (left right : ℤ) : (excess left right).length = 2 := by
  simp [excess, length_product_digits]

/-- What truncation drops and what wrapping drops are both multiples of `2^32`. -/
theorem dvd_value_excess {left right : ℤ} (hl : Fits 2 left) (hr : Fits 2 right) :
    base ^ 2 ∣ Limb.value (excess left right) := by
  have hlen := length_product_digits left right
  have htake := Limb.value_append ((LimbPoly.product (digits 2 left) (digits 2 right)).take 2)
    ((LimbPoly.product (digits 2 left) (digits 2 right)).drop 2)
  rw [List.take_append_drop, LimbPoly.value_product, Limb.value_digits hl, Limb.value_digits hr,
    List.length_take, hlen] at htake
  rw [excess, LimbPoly.value_difference, Limb.value_digits (fits_wrap _),
    eq_sub_of_add_eq htake.symm, sub_right_comm]
  exact dvd_sub (dvd_sub_wrap _) (dvd_mul_right _ _)

def filled (r : Row) (left right : ℤ) : Row :=
  (r.write Layout.output (cells 2 (wrap (left * right)))).write Layout.carry
    ((Carry.quotients 0 (excess left right)).map Felt.ofInt)

theorem on_fill {left right : ℤ} (w : Window) (hl : Fits 2 left) (hr : Fits 2 right) :
    (fill left right).on w = (.ok (), ⟨filled w.row left right, w.next⟩) := by
  have hne (z : ℤ) : digits 2 z ≠ [] := List.ne_nil_of_length_pos (by simp)
  have hdvd := dvd_value_excess hl hr
  rw [excess, LimbPoly.value_difference] at hdvd
  have hproduct : Carry.ofProduct (digits 2 left) (digits 2 right)
      (digits 2 (wrap (left * right))) = .ok (Carry.quotients 0 (excess left right)) :=
    Carry.ofProduct_of_dvd (hne left) (hne right) (by simp [length_product_digits])
      (by simpa using hdvd)
  rw [fill, on_bind_ok (on_writeWord w rfl (fits_wrap _)), on_bind_ok (on_splitWord _ hl),
    on_bind_ok (on_splitWord _ hr), on_bind_ok (on_splitWord _ (fits_wrap _)),
    on_bind_ok (on_lift_ok hproduct _), on_write .current Layout.carry _ _ (by simp [Layout.carry])]
  rfl

theorem on_record {a b : ℤ} (w : Window) (ha : Fits 2 a) (hb : Fits 2 b) :
    (record a b).on w = (.ok (), ⟨filled ((w.row.write Layout.operand0 (cells 2 a)).write
      Layout.operand1 (cells 2 b)) a b, w.next⟩) := by
  rw [record, on_bind_ok (on_writeWord w rfl ha), on_bind_ok (on_writeWord _ rfl hb),
    on_fill _ ha hb]
  rfl

end Product

namespace Remainder

def filled (next : Row) (modulus remainder : ℤ) : Row :=
  if modulus = 0 then next.set Layout.modulusIsZero 1
  else (next.set Layout.modulusInverse (Felt.ofInt modulus)⁻¹).write Layout.gap
    (cells 2 (modulus - remainder - 1))

theorem limbs_gap_filled (next : Row) {m : ℤ} (r : ℤ) (hm : m ≠ 0) :
    (filled next m r).limbs Layout.gap = cells 2 (m - r - 1) := by
  rw [filled, if_neg hm]
  exact Row.limbs_write_cells _ _ (by decide) (by decide)

theorem remainder_zero (z : ℤ) : remainder z 0 = 0 := rfl

theorem mul_quotient_add_remainder {z m : ℤ} (hm : m ≠ 0) :
    m * quotient z m + remainder z m = z := by
  rw [quotient, remainder, if_neg hm, if_neg hm]
  exact Int.mul_fdiv_add_fmod z m

theorem remainder_nonneg {z m : ℤ} (hm : 0 ≤ m) : 0 ≤ remainder z m := by
  unfold remainder
  split
  · exact le_rfl
  · exact Int.fmod_nonneg_of_pos z (by omega)

theorem remainder_lt {z m : ℤ} (hm : 0 < m) : remainder z m < m := by
  rw [remainder, if_neg hm.ne']
  exact Int.fmod_lt_of_pos z hm

/-- Dividing does not enlarge a number. -/
theorem natAbs_quotient_le (z m : ℤ) : (quotient z m).natAbs ≤ z.natAbs := by
  unfold quotient
  split
  · exact Nat.zero_le _
  · exact Int.natAbs_fdiv_le_natAbs z m

/-- Turning both signs around turns the sign of a remainder around. -/
theorem remainder_neg_neg (z m : ℤ) : remainder (-z) (-m) = -remainder z m := by
  by_cases hm : m = 0
  · rw [hm, neg_zero, remainder_zero, remainder_zero, neg_zero]
  · rw [remainder, remainder, if_neg hm, if_neg (neg_ne_zero.mpr hm)]
    exact Int.neg_fmod_neg z m

theorem natAbs_remainder_lt {z m : ℤ} (hm : m ≠ 0) : (remainder z m).natAbs < m.natAbs := by
  rcases lt_or_gt_of_ne hm with hneg | hpos
  · have h0 := remainder_nonneg (z := -z) (neg_nonneg.mpr hneg.le)
    have hlt := remainder_lt (z := -z) (neg_pos.mpr hneg)
    rw [remainder_neg_neg] at h0 hlt
    omega
  · have h0 := remainder_nonneg (z := z) hpos.le
    have hlt := remainder_lt (z := z) hpos
    omega

theorem fits_remainder {z m : ℤ} (hm : Fits 2 m) : Fits 2 (remainder z m) := by
  by_cases hz : m = 0
  · rw [hz, remainder_zero]
    decide
  · exact (natAbs_remainder_lt hz).trans hm

theorem on_writeCarries {p : List ℤ} (w : Window) (hp : p ≠ []) (hlen : p.length ≤ 5)
    (h : Limb.value p = 0) :
    (writeCarries p).on w =
      (.ok (), ⟨w.row, w.next.write Layout.productCarry ((Carry.root p).map Felt.ofInt)⟩) := by
  have hfit : (Carry.root p).length ≤ Layout.productCarry.length := by
    rw [Carry.length_root]
    exact Nat.sub_le_of_le_add hlen
  rw [writeCarries, on_bind_ok (on_lift_ok (Carry.ofRoot_of_value_eq_zero hp h) _),
    on_write .next Layout.productCarry _ w hfit]
  rfl

theorem on_record {m z : ℤ} (w : Window) (h0 : 0 ≤ m) (hm : Fits 2 m) :
    (record m (remainder z m)).on w = (.ok (), ⟨w.row, filled w.next m (remainder z m)⟩) := by
  rw [Limb.fits_two_iff] at hm
  unfold record filled
  split
  · rfl
  · have hpos : 0 < m := by omega
    have hr0 := remainder_nonneg (z := z) h0
    have hr := remainder_lt (z := z) hpos
    have hgap : Fits 2 (m - remainder z m - 1) := fits_of_bounds (by omega) (by omega)
    have hscalar : ¬(m < 0 ∨ (prime : ℤ) ≤ m) := by
      simp only [wordLimit, prime] at hm ⊢
      omega
    rw [if_neg hscalar, on_bind_ok (Recorder.on_assign .next _ _ w), on_writeWord _ rfl hgap]
    rfl

/-- No negative number is a representative, and nothing is recorded of one. -/
theorem on_record_of_neg {m r : ℤ} (w : Window) (hm : m < 0) :
    (record m r).on w = (.error (.notScalar m), w) := by
  rw [record, if_neg hm.ne, if_pos (.inl hm)]
  rfl

end Remainder

namespace Division
open Remainder (quotient remainder)

/-- The polynomial of a division of words; its value is zero. -/
def remainderPolynomial (dividend divisor : ℤ) : List ℤ :=
  polynomial (digits 2 dividend) (digits 2 divisor) (digits 2 (quotient dividend divisor))
    (digits 2 (remainder dividend divisor))

def filled (w : Window) (dividend divisor output : ℤ) : Window where
  row := ((w.row.write Layout.output (cells 2 output)).write Layout.quotient
    (cells 2 (quotient dividend divisor))).write Layout.remainder
    (cells 2 (remainder dividend divisor))
  next := Remainder.filled
    (if divisor = 0 then w.next else w.next.write Layout.productCarry
      ((Carry.root (remainderPolynomial dividend divisor)).map Felt.ofInt))
    divisor (remainder dividend divisor)

theorem length_polynomial {R : Type} [CommRing R] {a b q r : List R} (ha : a.length = 2)
    (hb : b.length = 2) (hq : q.length = 2) (hr : r.length = 2) :
    (polynomial a b q r).length = 3 := by
  rw [polynomial, LimbPoly.length_difference, LimbPoly.length_sum,
    LimbPoly.length_product (List.ne_nil_of_length_pos (by omega))
      (List.ne_nil_of_length_pos (by omega)), ha, hb, hq, hr]
  rfl

theorem polynomial_map_ofInt (a b q r : List ℤ) :
    polynomial (a.map Felt.ofInt) (b.map Felt.ofInt) (q.map Felt.ofInt) (r.map Felt.ofInt) =
      (polynomial a b q r).map Felt.ofInt := by
  simp only [polynomial, LimbPoly.product_map_ofInt, LimbPoly.sum_map_ofInt,
    LimbPoly.difference_map_ofInt]

theorem value_polynomial (a b q r : List ℤ) :
    Limb.value (polynomial a b q r) =
      Limb.value b * Limb.value q + Limb.value r - Limb.value a := by
  rw [polynomial, LimbPoly.value_difference, LimbPoly.value_sum, LimbPoly.value_product]

theorem length_remainderPolynomial (dividend divisor : ℤ) :
    (remainderPolynomial dividend divisor).length = 3 :=
  length_polynomial (by simp) (by simp) (by simp) (by simp)

variable {dividend divisor : ℤ}

theorem fits_quotient (ha : Fits 2 dividend) : Fits 2 (quotient dividend divisor) :=
  (Remainder.natAbs_quotient_le dividend divisor).trans_lt ha

theorem value_remainderPolynomial (ha : Fits 2 dividend) (hb : Fits 2 divisor)
    (hne : divisor ≠ 0) : Limb.value (remainderPolynomial dividend divisor) = 0 := by
  rw [remainderPolynomial, value_polynomial, Limb.value_digits ha, Limb.value_digits hb,
    Limb.value_digits (fits_quotient ha), Limb.value_digits (Remainder.fits_remainder hb),
    Remainder.mul_quotient_add_remainder hne, sub_self]

theorem on_writeCarries (w : Window) (ha : Fits 2 dividend) (hb : Fits 2 divisor)
    (hne : divisor ≠ 0) :
    (writeCarries dividend divisor (quotient dividend divisor) (remainder dividend divisor)).on w =
      (.ok (), ⟨w.row, w.next.write Layout.productCarry
        ((Carry.root (remainderPolynomial dividend divisor)).map Felt.ofInt)⟩) := by
  have hlen := length_remainderPolynomial dividend divisor
  rw [writeCarries, on_bind_ok (on_splitWord w ha), on_bind_ok (on_splitWord _ hb),
    on_bind_ok (on_splitWord _ (fits_quotient ha)),
    on_bind_ok (on_splitWord _ (Remainder.fits_remainder hb))]
  exact Remainder.on_writeCarries (p := remainderPolynomial dividend divisor) w
    (List.ne_nil_of_length_pos (by omega)) (by omega) (value_remainderPolynomial ha hb hne)

/-- Whatever the sign of the divisor, all goes well up to the bound on the remainder. -/
theorem on_fill_eq_on_record {op : WordOp} {output : ℤ} (w : Window) (ha : Fits 2 dividend)
    (hb : Fits 2 divisor)
    (hout : select? (quotient dividend divisor) (remainder dividend divisor) op = some output) :
    (fill op.selector.val dividend divisor output).on w =
      (Remainder.record divisor (remainder dividend divisor)).on
        ⟨(filled w dividend divisor output).row,
          if divisor = 0 then w.next else w.next.write Layout.productCarry
            ((Carry.root (remainderPolynomial dividend divisor)).map Felt.ofInt)⟩ := by
  have hq : Fits 2 (quotient dividend divisor) := fits_quotient ha
  have hr := Remainder.fits_remainder (z := dividend) hb
  have hfit : Fits 2 output := by cases op <;> cases hout <;> assumption
  simp only [fill, WordOp.ofSelector?_selector, Option.bind_some, hout, if_true]
  rw [on_bind_ok (on_writeWord w rfl hfit), on_bind_ok (on_writeWord _ rfl hq),
    on_bind_ok (on_writeWord _ rfl hr)]
  by_cases hne : divisor = 0
  · rw [if_pos hne, if_pos hne]
    rfl
  · rw [if_neg hne, if_neg hne, on_bind_ok (on_writeCarries _ ha hb hne)]
    rfl

theorem on_fill {op : WordOp} {output : ℤ} (w : Window) (ha : Fits 2 dividend) (h0 : 0 ≤ divisor)
    (hb : Fits 2 divisor)
    (hout : select? (quotient dividend divisor) (remainder dividend divisor) op = some output) :
    (fill op.selector.val dividend divisor output).on w =
      (.ok (), filled w dividend divisor output) := by
  rw [on_fill_eq_on_record w ha hb hout, Remainder.on_record _ h0 hb]
  rfl

/-- Once its operands are in place a division is filled in next to them. -/
theorem on_record_eq (w : Window) (ha : Fits 2 dividend) (hb : Fits 2 divisor) (s result : ℤ) :
    (record s dividend divisor result).on w = (fill s dividend divisor result).on
      ⟨(w.row.write Layout.operand0 (cells 2 dividend)).write Layout.operand1 (cells 2 divisor),
        w.next⟩ := by
  rw [record, on_bind_ok (on_writeWord w rfl ha), on_bind_ok (on_writeWord _ rfl hb)]
  rfl

theorem on_record {op : WordOp} {output : ℤ} (w : Window) (ha : Fits 2 dividend) (h0 : 0 ≤ divisor)
    (hb : Fits 2 divisor)
    (hout : select? (quotient dividend divisor) (remainder dividend divisor) op = some output) :
    (record op.selector.val dividend divisor output).on w =
      (.ok (), filled ⟨(w.row.write Layout.operand0 (cells 2 dividend)).write Layout.operand1
        (cells 2 divisor), w.next⟩ dividend divisor output) := by
  rw [on_record_eq w ha hb, on_fill _ ha h0 hb hout]

end Division

namespace Shift

def operands (r : Row) (amount z : ℤ) : Row :=
  ((r.write Layout.operand0 (cells 2 amount)).write Layout.operand1 (cells 2 z)).write
    Layout.operand2 (cells 2 (factor amount))

theorem factor_eq {amount : ℤ} (h : amount < 32) : factor amount = 2 ^ amount.toNat := by
  rw [factor, if_neg (not_le.mpr h), Nat.one_shiftLeft, Nat.cast_pow, Nat.cast_ofNat]

theorem factor_bounds (amount : ℤ) : 0 ≤ factor amount ∧ factor amount < wordLimit := by
  by_cases h : amount < 32
  · rw [factor_eq h]
    exact ⟨by positivity, pow_lt_pow_right₀ (n := 32) (by decide) (by omega)⟩
  · rw [factor, if_pos (not_lt.mp h)]
    decide

theorem fits_factor (amount : ℤ) : Fits 2 (factor amount) :=
  fits_of_bounds (factor_bounds amount).1 (factor_bounds amount).2

variable {amount z : ℤ}

/-- The output of a product is read back as it was recorded. -/
theorem on_fill_read {d : ℤ} {f : List ℤ → Recorder Unit} (hz : Fits 2 z) (hd : Fits 2 d)
    (w : Window) :
    (do
      Product.fill z d
      let output ← Recorder.read Layout.output
      f (output.map (fun x => (x.val : ℤ))) : Recorder Unit).on w =
    (do
      Product.fill z d
      f (digits 2 (wrap (z * d))) : Recorder Unit).on w := by
  have hrun := Product.on_fill w hz hd
  have hread : (Recorder.read Layout.output).on ⟨Product.filled w.row z d, w.next⟩ =
      (.ok (cells 2 (wrap (z * d))), ⟨Product.filled w.row z d, w.next⟩) := by
    rw [Recorder.on_read, Product.filled, Row.limbs_write_of_disjoint _ _ (by decide),
      Row.limbs_write_cells _ _ (by decide) (by decide)]
  rw [on_bind_ok hrun, on_bind_ok hrun, on_bind_ok hread, Limb.map_val_cells (wrap_nonneg _)]

/-- A left shift records the product first, and then compares the result it is given. -/
theorem on_record_left_eq (w : Window) (h0 : 0 ≤ amount) (ha : Fits 2 amount) (hz : Fits 2 z)
    (result : ℤ) : (record .left amount z result).on w =
      (do
        let expected ← Limb.splitWord result
        if digits 2 (wrap (z * factor amount)) = expected then pure ()
        else throw (.wrongShift result (digits 2 (wrap (z * factor amount)))) : Recorder Unit).on
      ⟨Product.filled (operands w.row amount z) z (factor amount), w.next⟩ := by
  have hfactor : factor? amount = .ok (factor amount) := if_neg (not_lt.mpr h0)
  rw [record, on_bind_ok (on_lift_ok hfactor w), on_bind_ok (on_writeWord _ rfl ha),
    on_bind_ok (on_writeWord _ rfl hz), on_bind_ok (on_writeWord _ rfl (fits_factor amount))]
  have hread (v : Window) := on_fill_read hz (fits_factor amount) v (f := fun output => do
    let expected ← Limb.splitWord result
    if output = expected then pure () else throw (.wrongShift result output))
  exact (hread _).trans (on_bind_ok (Product.on_fill _ hz (fits_factor amount)))

theorem on_record_left (w : Window) (h0 : 0 ≤ amount) (ha : Fits 2 amount) (hz : Fits 2 z) :
    (record .left amount z (wrap (z * factor amount))).on w =
      (.ok (), ⟨Product.filled (operands w.row amount z) z (factor amount), w.next⟩) := by
  rw [on_record_left_eq w h0 ha hz, on_bind_ok (on_splitWord _ (fits_wrap _)), if_pos rfl]
  rfl

/-- A right shift is a division, once the operands are in place. -/
theorem on_record_right_eq (w : Window) (h0 : 0 ≤ amount) (ha : Fits 2 amount) (hz : Fits 2 z)
    (result : ℤ) : (record .right amount z result).on w =
      (Division.fill (WordOp.selector .shr).val z (factor amount) result).on
        ⟨operands w.row amount z, w.next⟩ := by
  have hfactor : factor? amount = .ok (factor amount) := if_neg (not_lt.mpr h0)
  rw [record, on_bind_ok (on_lift_ok hfactor w), on_bind_ok (on_writeWord _ rfl ha),
    on_bind_ok (on_writeWord _ rfl hz), on_bind_ok (on_writeWord _ rfl (fits_factor amount))]
  rfl

theorem on_record_right (w : Window) (h0 : 0 ≤ amount) (ha : Fits 2 amount) (hz : Fits 2 z) :
    (record .right amount z (Remainder.quotient z (factor amount))).on w =
      (.ok (), Division.filled ⟨operands w.row amount z, w.next⟩ z (factor amount)
        (Remainder.quotient z (factor amount))) := by
  rw [on_record_right_eq w h0 ha hz]
  exact @Division.on_fill _ _ .shr _ _ hz (factor_bounds amount).1 (fits_factor amount) rfl

end Shift

namespace Residue
open Remainder (quotient remainder)

/-- The exact outcome of an operator on words has at most 64 bits. -/
theorem fits_exact {a b : ℤ} (op : ResidueOp) (ha : Fits 2 a) (hb : Fits 2 b) :
    Fits 4 (op.exact a b) := by
  unfold Fits at *
  cases op
  · have h := Int.natAbs_add_le a b
    simp only [ResidueOp.exact]
    omega
  · simp only [ResidueOp.exact, Int.natAbs_mul]
    exact (Nat.mul_lt_mul'' ha hb).trans_le (by norm_num)
  · have h := Int.natAbs_sub_le a b
    simp only [ResidueOp.exact]
    omega

/-- The polynomial of a residue of words; its value is zero. -/
def remainderPolynomial (op : ResidueOp) (a b m : ℤ) : List ℤ :=
  polynomial op (digits 2 a) (digits 2 b) (digits 2 m) (digits 2 (remainder (op.exact a b) m))
    (digits 4 (quotient (op.exact a b) m))

/-- A row with the five registers of a residue. -/
def written (row : Row) (a b m output quotient : ℤ) : Row :=
  ((((row.write Layout.operand0 (cells 2 a)).write Layout.operand1 (cells 2 b)).write
    Layout.operand2 (cells 2 m)).write Layout.output (cells 2 output)).write
    Layout.wideQuotient (cells 4 quotient)

def filled (w : Window) (op : ResidueOp) (a b m : ℤ) : Window where
  row := written w.row a b m (remainder (op.exact a b) m) (quotient (op.exact a b) m)
  next := Remainder.filled
    (if m = 0 then w.next else w.next.write Layout.productCarry
      ((Carry.root (remainderPolynomial op a b m)).map Felt.ofInt))
    m (remainder (op.exact a b) m)

theorem length_opPolynomial {R : Type} [CommRing R] (op : ResidueOp) {a b : List R}
    (ha : a.length = 2) (hb : b.length = 2) : (op.polynomial a b).length ≤ 3 := by
  cases op
  · simp [ResidueOp.polynomial, ha, hb]
  · rw [ResidueOp.polynomial, LimbPoly.length_product (List.ne_nil_of_length_pos (by omega))
      (List.ne_nil_of_length_pos (by omega)), ha, hb]
  · simp [ResidueOp.polynomial, ha, hb]

theorem length_polynomial {R : Type} [CommRing R] (op : ResidueOp) {a b m r q : List R}
    (ha : a.length = 2) (hb : b.length = 2) (hm : m.length = 2) (hr : r.length = 2)
    (hq : q.length = 4) : (polynomial op a b m r q).length = 5 := by
  have hop := length_opPolynomial op ha hb
  rw [polynomial, LimbPoly.length_difference, LimbPoly.length_sum,
    LimbPoly.length_product (List.ne_nil_of_length_pos (by omega))
      (List.ne_nil_of_length_pos (by omega)), hm, hr, hq]
  omega

theorem length_remainderPolynomial (op : ResidueOp) (a b m : ℤ) :
    (remainderPolynomial op a b m).length = 5 :=
  length_polynomial op (by simp) (by simp) (by simp) (by simp) (by simp)

theorem polynomial_map_ofInt (op : ResidueOp) (a b m r q : List ℤ) :
    polynomial op (a.map Felt.ofInt) (b.map Felt.ofInt) (m.map Felt.ofInt) (r.map Felt.ofInt)
        (q.map Felt.ofInt) = (polynomial op a b m r q).map Felt.ofInt := by
  cases op <;>
    simp only [polynomial, ResidueOp.polynomial, LimbPoly.product_map_ofInt, LimbPoly.sum_map_ofInt,
      LimbPoly.difference_map_ofInt]

theorem value_opPolynomial (op : ResidueOp) (a b : List ℤ) :
    Limb.value (op.polynomial a b) = op.exact (Limb.value a) (Limb.value b) := by
  cases op
  · exact LimbPoly.value_sum a b
  · exact LimbPoly.value_product a b
  · exact LimbPoly.value_difference a b

theorem value_polynomial (op : ResidueOp) (a b m r q : List ℤ) :
    Limb.value (polynomial op a b m r q) =
      Limb.value m * Limb.value q + Limb.value r - op.exact (Limb.value a) (Limb.value b) := by
  rw [polynomial, LimbPoly.value_difference, LimbPoly.value_sum, LimbPoly.value_product,
    value_opPolynomial]

variable {a b m : ℤ}

theorem fits_quotient (op : ResidueOp) (ha : Fits 2 a) (hb : Fits 2 b) (m : ℤ) :
    Fits 4 (quotient (op.exact a b) m) :=
  (Remainder.natAbs_quotient_le _ m).trans_lt (fits_exact op ha hb)

theorem value_remainderPolynomial (op : ResidueOp) (ha : Fits 2 a) (hb : Fits 2 b)
    (hm : Fits 2 m) (hne : m ≠ 0) : Limb.value (remainderPolynomial op a b m) = 0 := by
  rw [remainderPolynomial, value_polynomial, Limb.value_digits ha, Limb.value_digits hb,
    Limb.value_digits hm, Limb.value_digits (fits_quotient op ha hb m),
    Limb.value_digits (Remainder.fits_remainder hm), Remainder.mul_quotient_add_remainder hne,
    sub_self]

theorem on_writeCarries (op : ResidueOp) (w : Window) (ha : Fits 2 a) (hb : Fits 2 b)
    (hm : Fits 2 m) (hne : m ≠ 0) :
    (Remainder.writeCarries (polynomial op (digits 2 a) (digits 2 b) (digits 2 m)
        (digits 2 (remainder (op.exact a b) m)) (digits 4 (quotient (op.exact a b) m)))).on w =
      (.ok (), ⟨w.row, w.next.write Layout.productCarry
        ((Carry.root (remainderPolynomial op a b m)).map Felt.ofInt)⟩) := by
  have hlen := length_remainderPolynomial op a b m
  exact Remainder.on_writeCarries (p := remainderPolynomial op a b m) w
    (List.ne_nil_of_length_pos (by omega)) hlen.le (value_remainderPolynomial op ha hb hm hne)

theorem record_selector (op : ResidueOp) (a b m : ℤ) :
    record op.selector.val a b m = fill op a b m := by
  rw [record, ResidueOp.ofSelector?_selector]

/-- Whatever the sign of the modulus, all goes well up to the bound on the remainder. -/
theorem on_fill_eq_on_record (op : ResidueOp) (w : Window) (ha : Fits 2 a) (hb : Fits 2 b)
    (hm : Fits 2 m) : (fill op a b m).on w =
      (Remainder.record m (remainder (op.exact a b) m)).on ⟨(filled w op a b m).row,
        if m = 0 then w.next else w.next.write Layout.productCarry
          ((Carry.root (remainderPolynomial op a b m)).map Felt.ofInt)⟩ := by
  have hr := Remainder.fits_remainder (z := op.exact a b) hm
  have hq := fits_quotient op ha hb m
  simp only [fill]
  rw [on_bind_ok (on_splitWord w ha), on_bind_ok (on_splitWord _ hb),
    on_bind_ok (on_splitWord _ hm), on_bind_ok (on_splitWord _ hr),
    on_bind_ok (on_lift_ok (Limb.split_of_fits hq) _),
    on_bind_ok (on_writeDigits Layout.operand0 2 a w rfl),
    on_bind_ok (on_writeDigits Layout.operand1 2 b _ rfl),
    on_bind_ok (on_writeDigits Layout.operand2 2 m _ rfl),
    on_bind_ok (on_writeDigits Layout.output 2 _ _ rfl),
    on_bind_ok (on_writeDigits Layout.wideQuotient 4 _ _ rfl)]
  by_cases hne : m = 0
  · rw [if_pos hne, if_pos hne]
    rfl
  · rw [if_neg hne, if_neg hne, on_bind_ok (on_writeCarries op _ ha hb hm hne)]
    rfl

theorem on_record (op : ResidueOp) (w : Window) (ha : Fits 2 a) (hb : Fits 2 b) (h0 : 0 ≤ m)
    (hm : Fits 2 m) : (record op.selector.val a b m).on w = (.ok (), filled w op a b m) := by
  rw [record_selector, on_fill_eq_on_record op w ha hb hm, Remainder.on_record _ h0 hm]
  rfl

end Residue
end WordTrace
