import WordTrace.Proofs.Completeness
import WordTrace.Proofs.Remainder

/-! # Truncated products are bound once their carries are bounded

The carry out of a truncated product is not tied to anything, and a carry from the whole field can
make up for any output. Carries of at most 32 bits leave no room to wrap around the prime: they
settle the product over the integers, and the output is the wrapped product.
-/

namespace WordTrace
open Limb (InRange number valueFelt cells digits base)
open LimbPoly (Bounded bounded_digits)

namespace Product

theorem signed_of_lt_bound {c : Felt} (h : c.val < Carry.bound) : c.signed = c.val := by
  apply Felt.signed_eq_val
  simp only [Carry.bound, prime] at *
  omega

theorem bounded_carries {cs : List Felt} (h : ∀ c ∈ cs, c.val < Carry.bound) :
    Bounded Carry.bound (cs.map Felt.signed) := by
  intro z hz
  obtain ⟨c, hc, rfl⟩ := List.mem_map.mp hz
  rw [signed_of_lt_bound (h c hc)]
  exact (h c hc).le

/-- The greatest coefficient is the one in the middle, of two products of limbs. -/
theorem bounded_difference (x y z : ℤ) :
    Bounded (2 * (65535 * 65535) + 65535) (LimbPoly.difference
      ((LimbPoly.product (digits 2 x) (digits 2 y)).take 2) (digits 2 z)) := by
  have hproduct := (bounded_digits 2 x).product (bounded_digits 2 y)
  rw [Limb.length_digits] at hproduct
  exact (hproduct.take 2).difference (bounded_digits 2 z)

/-- The only word that the two lowest limbs of a product exceed by a multiple of `2^32` is the
wrapped product. -/
theorem eq_wrap_of_dvd_difference {x y z : ℤ} (hx : Limb.Fits 2 x) (hy : Limb.Fits 2 y)
    (hz : 0 ≤ z ∧ z < wordLimit)
    (h : base ^ 2 ∣ Limb.value (LimbPoly.difference
      ((LimbPoly.product (digits 2 x) (digits 2 y)).take 2) (digits 2 z))) :
    z = wrap (x * y) := by
  have hexcess := dvd_value_excess hx hy
  rw [LimbPoly.value_difference, Limb.value_digits (fits_of_bounds hz.1 hz.2)] at h
  rw [excess, LimbPoly.value_difference, Limb.value_digits (fits_wrap _)] at hexcess
  have hdvd := dvd_sub h hexcess
  rw [sub_sub_sub_cancel_left] at hdvd
  calc z = wrap (wrap (x * y)) := eq_wrap_of_dvd hz hdvd
    _ = wrap (x * y) := Int.emod_emod_of_dvd _ (dvd_refl _)

variable {r : Row} {left right : Register} {x y : ℤ}

/-- Output and carries are those of the factors. -/
theorem limbs_of_holds (h : Holds r left right) (hl : InRange (r.limbs left))
    (hr : InRange (r.limbs right)) (ho : InRange (r.limbs Layout.output))
    (hc : ∀ c ∈ r.limbs Layout.carry, c.val < Carry.bound) (hll : left.length = 2)
    (hlr : right.length = 2) (hx : number (r.limbs left) = x) (hy : number (r.limbs right) = y) :
    r.limbs Layout.output = cells 2 (wrap (x * y)) ∧
      r.limbs Layout.carry = (Carry.quotients 0 (excess x y)).map Felt.ofInt := by
  have hleft := hl.eq_cells_of_number ((r.length_limbs left).trans hll) hx
  have hright := hr.eq_cells_of_number ((r.length_limbs right).trans hlr) hy
  have hout := ho.eq_cells_of_number (r.length_limbs Layout.output) rfl
  have hbx := hl.word_bounds ((r.length_limbs left).trans hll)
  have hby := hr.word_bounds ((r.length_limbs right).trans hlr)
  have hbz := ho.word_bounds (r.length_limbs Layout.output)
  rw [hx] at hbx
  rw [hy] at hby
  have hvanish := h
  rw [Holds, hleft, hright, hout, difference_cells, ← Limb.map_ofInt_signed (r.limbs Layout.carry)]
    at hvanish
  obtain ⟨hdvd, hcarries⟩ := @Carry.eq_quotients_of_bounded _ Carry.bound (by decide) 0 _ _
    (by simp [length_product_digits, Layout.carry])
    (bounded_difference _ _ _) (bounded_carries hc) (Nat.zero_le _) hvanish
  have hlen : (LimbPoly.difference ((LimbPoly.product (digits 2 x) (digits 2 y)).take 2)
      (digits 2 (number (r.limbs Layout.output)))).length = 2 := by
    simp [length_product_digits]
  rw [hlen, zero_add] at hdvd
  have hwrap := eq_wrap_of_dvd_difference (fits_of_bounds hbx.1 hbx.2)
    (fits_of_bounds hby.1 hby.2) hbz hdvd
  rw [hwrap] at hout hcarries
  refine ⟨hout, ?_⟩
  rw [← Limb.map_ofInt_signed (r.limbs Layout.carry), hcarries]
  rfl

/-- Rows that agree in output and carries. -/
structure Agree (row row' : Row) : Prop where
  output : row.limbs Layout.output = row'.limbs Layout.output
  carry : row.limbs Layout.carry = row'.limbs Layout.carry

end Product

namespace WordOp
variable {op : WordOp} {w : Window}

/-- Factors and output consist of limbs, and the carries are bounded. -/
structure ProductChecked (op : WordOp) (r : Row) : Prop where
  left : InRange (r.limbs op.leftRegister)
  right : InRange (r.limbs op.rightRegister)
  output : InRange (r.limbs Layout.output)
  carries : ∀ c ∈ r.limbs Layout.carry, c.val < Carry.bound

instance (op : WordOp) (r : Row) : Decidable (op.ProductChecked r) :=
  decidable_of_iff (InRange (r.limbs op.leftRegister) ∧ InRange (r.limbs op.rightRegister) ∧
      InRange (r.limbs Layout.output) ∧ ∀ c ∈ r.limbs Layout.carry, c.val < Carry.bound)
    ⟨fun ⟨hl, hr, ho, hc⟩ => ⟨hl, hr, ho, hc⟩, fun ⟨hl, hr, ho, hc⟩ => ⟨hl, hr, ho, hc⟩⟩

/-- Once the table accepts a window under an operator that multiplies, range checks on factors,
output and carries make output and carries those that the gadget fills in for the factors, on
whatever window. A shift that reads the factor of its amount has the result of the shift. -/
theorem product_determined (h : op.Multiplies) (haccepts : Table.accepts w = true)
    (hselector : w.row.get op.selector = 1) (hw : op.ProductChecked w.row) :
    ∃ a b : Word,
      (w.row.read op.leftRegister).value = Felt.ofInt a.val ∧
      (w.row.read op.rightRegister).value = Felt.ofInt b.val ∧
      (w.row.read Layout.output).value = Felt.ofInt (wrap (a.val * b.val)) ∧
      (∀ u : Window, ∃ v : Window,
        (Product.fill a.val b.val).on u = (.ok (), v) ∧ Product.Agree w.row v.row) ∧
      (op = .shl → ∀ s : Word, (w.row.read Layout.operand0).value = Felt.ofInt s.val →
        (w.row.read Layout.operand2).value = Felt.ofInt (Shift.factor s.val) →
        (w.row.read Layout.output).value = Felt.ofInt (result .shl s.val a.val)) := by
  obtain ⟨-, hholds⟩ := @Table.holds_of_accepts w (.word op) haccepts hselector
  have hll : op.leftRegister.length = 2 := by cases op <;> rfl
  have hlr : op.rightRegister.length = 2 := by cases op <;> rfl
  let a : Word := ⟨_, hw.left.word_bounds ((w.row.length_limbs _).trans hll)⟩
  let b : Word := ⟨_, hw.right.word_bounds ((w.row.length_limbs _).trans hlr)⟩
  have ha : number (w.row.limbs op.leftRegister) = a.val := rfl
  have hb : number (w.row.limbs op.rightRegister) = b.val := rfl
  obtain ⟨houtput, hcarry⟩ := Product.limbs_of_holds ((holds_iff_of_multiplies h w).mp hholds)
    hw.left hw.right hw.output hw.carries hll hlr ha hb
  have hvalue : (w.row.read Layout.output).value = Felt.ofInt (wrap (a.val * b.val)) :=
    (congrArg valueFelt houtput).trans (Limb.valueFelt_cells (fits_wrap _))
  refine ⟨a, b, (Limb.ofInt_number _).symm, (Limb.ofInt_number _).symm, hvalue, ?_, ?_⟩
  · intro u
    refine ⟨_, Product.on_fill u (Limb.Fits.word a) (Limb.Fits.word b), ?_, ?_⟩
    · exact houtput.trans (Product.limbs_output_filled _ _ _).symm
    · exact hcarry.trans (Product.limbs_carry_filled _ _ _).symm
  · rintro rfl s - hfactor
    have hright : b.val = Shift.factor s.val :=
      Limb.eq_of_ofInt_eq b.property (Shift.factor_bounds s.val)
        ((Limb.ofInt_number _).trans hfactor)
    rw [hvalue, result_shl, hright]

/-- A shift by three places that drops bits. -/
theorem product_determined_shl :
    let w : Window := ⟨shl.multiplied (Operation.start (.word .shl)).row ⟨3, by decide⟩
      ⟨4294967295, by decide⟩, .zero⟩
    ∃ a b : Word,
      (w.row.read shl.leftRegister).value = Felt.ofInt a.val ∧
      (w.row.read shl.rightRegister).value = Felt.ofInt b.val ∧
      (w.row.read Layout.output).value = Felt.ofInt (wrap (a.val * b.val)) ∧
      (∀ u : Window, ∃ v : Window,
        (Product.fill a.val b.val).on u = (.ok (), v) ∧ Product.Agree w.row v.row) ∧
      (shl = .shl → ∀ s : Word, (w.row.read Layout.operand0).value = Felt.ofInt s.val →
        (w.row.read Layout.operand2).value = Felt.ofInt (Shift.factor s.val) →
        (w.row.read Layout.output).value = Felt.ofInt (result .shl s.val a.val)) :=
  product_determined (.inr rfl) (by decide +kernel) (by decide +kernel) (by decide +kernel)

end WordOp
end WordTrace
