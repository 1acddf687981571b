import WordTrace.Proofs.Completeness

/-! # Where the carries of a truncated product lie

The lower carry is one limb. The last one sums two products of limbs and may need a bit more than a
limb has: it is what the upper half of the whole product exceeds the product of the upper limbs by.
When a factor has a limb that is zero, as every power of two has, one of the two products vanishes
and the last carry is a limb as well.
-/

namespace WordTrace
open Limb (Fits cells digits base)

theorem Limb.digits_word {z : ℤ} (h0 : 0 ≤ z) (h : z < wordLimit) :
    digits 2 z = [z % base, z / base] := by
  have hlow : z.tmod base = z % base := Int.tmod_eq_emod_of_nonneg h0
  have hhigh : z.tdiv base = z / base := Int.tdiv_eq_ediv_of_nonneg h0
  have htop : (z / base).tmod base = z / base := by
    rw [Int.tmod_eq_emod_of_nonneg (Int.ediv_nonneg h0 (by decide))]
    simp only [wordLimit, base] at *
    omega
  rw [digits, digits, digits, hlow, hhigh, htop]

theorem Limb.bounds_of_word {z : ℤ} (h : 0 ≤ z ∧ z < wordLimit) :
    (0 ≤ z % base ∧ z % base < base) ∧ 0 ≤ z / base ∧ z / base < base := by
  simp only [wordLimit, base] at *
  omega

namespace Product

/-- The last carry: the upper half of the product less the product of the upper limbs. -/
def topCarry (x y : ℤ) : ℤ := x * y / wordLimit - x / base * (y / base)

/-- The two products of a lower and an upper limb, in the middle of the whole. -/
def cross (x y : ℤ) : ℤ := x % base * (y / base) + x / base * (y % base)

theorem mul_eq_limbs (x y : ℤ) : x * y =
    x % base * (y % base) + base * cross x y + base ^ 2 * (x / base * (y / base)) := by
  have hx := Int.emod_add_mul_ediv x base
  have hy := Int.emod_add_mul_ediv y base
  calc x * y = (x % base + base * (x / base)) * (y % base + base * (y / base)) := by rw [hx, hy]
    _ = _ := by
      rw [cross]
      ring

/-- Nothing but the lower limbs and the cross products reaches the last carry. -/
theorem topCarry_eq (x y : ℤ) :
    topCarry x y = (x % base * (y % base) + base * cross x y) / wordLimit := by
  have hlimbs := mul_eq_limbs x y
  rw [topCarry]
  simp only [wordLimit, base] at *
  omega

/-- The product of two limbs has at most two limbs. -/
theorem limb_mul_bounds {u v : ℤ} (hu : 0 ≤ u ∧ u < base) (hv : 0 ≤ v ∧ v < base) :
    0 ≤ u * v ∧ u * v ≤ 65535 * 65535 := by
  constructor
  · exact mul_nonneg hu.1 hv.1
  · exact mul_le_mul (Int.le_sub_one_of_lt hu.2) (Int.le_sub_one_of_lt hv.2) hv.1 (by decide)

section Words
variable {x y : ℤ} (hx : 0 ≤ x ∧ x < wordLimit) (hy : 0 ≤ y ∧ y < wordLimit)
include hx hy

theorem excess_eq : excess x y = [x % base * (y % base) - wrap (x * y) % base,
    cross x y - wrap (x * y) / base] := by
  rw [excess, Limb.digits_word hx.1 hx.2, Limb.digits_word hy.1 hy.2,
    Limb.digits_word (wrap_nonneg _) (wrap_lt _)]
  rfl

theorem quotients_excess :
    Carry.quotients 0 (excess x y) = [x % base * (y % base) / base, topCarry x y] := by
  have hlimbs := mul_eq_limbs x y
  rw [excess_eq hx hy, topCarry_eq]
  have hlow : (0 + (x % base * (y % base) - wrap (x * y) % base)) / base =
      x % base * (y % base) / base := by
    rw [wrap]
    simp only [wordLimit, base] at *
    omega
  have hhigh : (x % base * (y % base) / base + (cross x y - wrap (x * y) / base)) / base =
      (x % base * (y % base) + base * cross x y) / wordLimit := by
    rw [wrap]
    simp only [wordLimit, base] at *
    omega
  rw [Carry.quotients, Carry.quotients, Carry.quotients, hlow, hhigh]

/-- The lower carry leaves room for one more, the last one nearly fills a bit beyond the limb. -/
theorem carry_bounds :
    (0 ≤ x % base * (y % base) / base ∧ x % base * (y % base) / base ≤ 65534) ∧
      0 ≤ topCarry x y ∧ topCarry x y ≤ 131069 := by
  obtain ⟨hx0, hx1⟩ := Limb.bounds_of_word hx
  obtain ⟨hy0, hy1⟩ := Limb.bounds_of_word hy
  have hlow := limb_mul_bounds hx0 hy0
  have hleft := limb_mul_bounds hx0 hy1
  have hright := limb_mul_bounds hx1 hy0
  rw [topCarry_eq, cross]
  simp only [wordLimit, base] at *
  omega

/-- One of the two cross products vanishes next to a zero limb. -/
theorem topCarry_lt_base (h : y % base = 0 ∨ y / base = 0) : topCarry x y < base := by
  obtain ⟨hx0, hx1⟩ := Limb.bounds_of_word hx
  obtain ⟨hy0, hy1⟩ := Limb.bounds_of_word hy
  have hlow := limb_mul_bounds hx0 hy0
  rw [topCarry_eq, cross]
  rcases h with h | h
  · have hleft := limb_mul_bounds hx0 hy1
    rw [h, mul_zero, mul_zero, add_zero, zero_add]
    simp only [wordLimit, base] at *
    omega
  · have hright := limb_mul_bounds hx1 hy0
    rw [h, mul_zero, zero_add]
    simp only [wordLimit, base] at *
    omega

/-- The carries of two words as they stand in the register. -/
theorem limbs_carry_filled_words (r : Row) : (filled r x y).limbs Layout.carry =
    [Felt.ofInt (x % base * (y % base) / base), Felt.ofInt (topCarry x y)] := by
  rw [limbs_carry_filled, quotients_excess hx hy]
  rfl

theorem val_topCarry_filled (r : Row) :
    (((filled r x y).get Layout.topCarry).val : ℤ) = topCarry x y := by
  obtain ⟨-, h0, hle⟩ := carry_bounds hx hy
  have hcells := (List.cons.inj (limbs_carry_filled_words hx hy r)).2
  have htop : (filled r x y).get Layout.topCarry = Felt.ofInt (topCarry x y) :=
    (List.cons.inj hcells).1
  rw [htop]
  exact Felt.val_ofInt h0 (hle.trans_lt (by decide))

/-- Recording a product keeps all cells in range but the one of the last carry. -/
theorem inRange_filled_of_ne {r : Row} (hr : r.InRange) {c : Column} (hc : c ≠ Layout.topCarry) :
    ((filled r x y).get c).val < 65536 := by
  obtain ⟨⟨h0, hle⟩, -⟩ := carry_bounds hx hy
  have hval := Felt.val_ofInt h0 (hle.trans_lt (by decide))
  have hout : (r.write Layout.output (cells 2 (wrap (x * y)))).InRange :=
    hr.write (Limb.inRange_cells (wrap_nonneg _))
  refine @Row.forall_get_write _ Layout.carry
    (fun d z => d ≠ Layout.topCarry → z.val < 65536) _ (fun d _ => hout d) ?_ c hc
  rw [quotients_excess hx hy]
  intro p hp hne
  rcases List.mem_cons.mp hp with rfl | hp
  · change (Felt.ofInt (x % base * (y % base) / base)).val < 65536
    omega
  · exact absurd (congrArg Prod.fst (List.mem_singleton.mp hp)) hne

/-- A recorded product is in range exactly when its last carry is. -/
theorem inRange_filled_iff {r : Row} (hr : r.InRange) :
    (filled r x y).InRange ↔ topCarry x y < base := by
  have htop := val_topCarry_filled hx hy r
  constructor
  · intro h
    have hlt := h Layout.topCarry
    simp only [base]
    omega
  · intro hlt c
    by_cases hc : c = Layout.topCarry
    · rw [hc]
      simp only [base] at hlt
      omega
    · exact inRange_filled_of_ne hx hy hr hc

end Words
end Product

/-- A power of two has one limb that is zero, and zero has two. -/
theorem Shift.factor_limb_eq_zero (amount : ℤ) :
    factor amount % base = 0 ∨ factor amount / base = 0 := by
  by_cases hlarge : amount < 32
  · rw [factor_eq hlarge]
    by_cases hsmall : amount.toNat < 16
    · right
      have hlt : (2 : ℤ) ^ amount.toNat < 2 ^ 16 := pow_lt_pow_right₀ (by decide) hsmall
      exact Int.ediv_eq_zero_of_lt (by positivity) hlt
    · left
      have hdvd : (2 : ℤ) ^ 16 ∣ 2 ^ amount.toNat := pow_dvd_pow 2 (not_lt.mp hsmall)
      exact Int.emod_eq_zero_of_dvd hdvd
  · left
    rw [factor, if_pos (not_lt.mp hlarge)]
    rfl

theorem Operation.inRange_start (op : Operator) : (start op).row.InRange :=
  Row.inRange_zero.set (by decide)

namespace WordOp

/-- Every column of a recorded left shift is a limb. Of a recorded product every column but that of
the last carry is one, and the last carry is known: it stays below `2^17 - 2`, and may be more than
a limb. -/
theorem product_range (a b : Word) :
    (∃ rows, (Operation.word (operation .shl a b)).rows = .ok rows ∧ rows.row.InRange) ∧
      ∃ rows, (Operation.word (operation .mul a b)).rows = .ok rows ∧
        (∀ c, c ≠ Layout.topCarry → (rows.row.get c).val < 65536) ∧
        ((rows.row.get Layout.topCarry).val : ℤ) = Product.topCarry a.val b.val ∧
        Product.topCarry a.val b.val ≤ 131069 ∧
        (rows.row.InRange ↔ Product.topCarry a.val b.val < base) := by
  have hwrite {r : Row} (hr : r.InRange) (register : Register) {z : ℤ} (h0 : 0 ≤ z) :
      (r.write register (cells 2 z)).InRange := hr.write (Limb.inRange_cells h0)
  have hwords (op : WordOp) : (((Operation.start (.word op)).row.write Layout.operand0
      (cells 2 a.val)).write Layout.operand1 (cells 2 b.val)).InRange :=
    hwrite (hwrite (Operation.inRange_start _) _ a.property.1) _ b.property.1
  constructor
  · have hfactor := Shift.factor_bounds a.val
    refine ⟨_, (records_of_multiplies (.inr rfl) a b).rows, ?_⟩
    refine (Product.inRange_filled_iff b.property hfactor ?_).mpr ?_
    · exact hwrite (hwords .shl) _ hfactor.1
    · exact Product.topCarry_lt_base b.property hfactor (Shift.factor_limb_eq_zero a.val)
  · obtain ⟨-, -, hle⟩ := Product.carry_bounds a.property b.property
    refine ⟨_, (records_of_multiplies (.inl rfl) a b).rows, ?_, ?_, hle, ?_⟩
    · intro c hc
      exact Product.inRange_filled_of_ne a.property b.property (hwords .mul) hc
    · exact Product.val_topCarry_filled a.property b.property _
    · exact Product.inRange_filled_iff a.property b.property (hwords .mul)

/-- The last carry of the product of the greatest words is nearly twice what a limb holds. -/
theorem product_range_exceeded : ¬∀ (op : WordOp) (a b : Word) (rows : Rows), op.Multiplies →
    (Operation.word (op.operation a b)).rows = .ok rows → rows.row.InRange := by
  intro h
  let greatest : Word := ⟨4294967295, by decide⟩
  have hrows := (records_of_multiplies (.inl rfl) greatest greatest).rows
  have htop := h .mul greatest greatest _ (.inl rfl) hrows Layout.topCarry
  exact absurd htop (by decide +kernel)

end WordOp
end WordTrace
